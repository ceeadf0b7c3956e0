import WeLang.Proofs.Choice
import WeLang.Proofs.Leaving

/-!
# Where nodes come from

The trace of a value says what is left of it in a draft, and has forgotten how it came
there. Two things are worth knowing again. One is the path: between the two offsets of a
trace there is a piece of it, to the very offset and not only up to blanks, and what is
read on it is spelled by the pattern (`Pattern.Traces.path`). The other is the run: what
is left of the values inside a value was left by runs of the matcher of values, each inside
of a node of its own and each at an offset on the path (`Grammar.Placed`).

So every node of a tree can be traced back to a run that made it (`Node.Built`), and what
holds of such runs can be said of nodes.
-/

namespace WeLang

variable {cx : Context} {src : Source} {o o' m : Nat} {d d' : Draft}

/-! ## Offsets on the path -/

/-- An offset up to which tokens are read, up to blanks. -/
def Source.Reached (src : Source) (o : Nat) : Prop :=
  ∃ us, src.Reaches 0 us o

/-- An offset behind which a chain of names does not go on. -/
def Source.Closes (src : Source) (o : Nat) : Prop :=
  ∀ x, src.lexeme? o = some x → x.kind ≠ .symbol .identifierSeparator

namespace Source

theorem reached_zero (src : Source) : src.Reached 0 :=
  ⟨[], .refl src 0⟩

theorem Reached.path {xs : List Lexeme} (h : src.Reached o) (hpath : src.Path o xs o') :
    src.Reached o' := by
  obtain ⟨us, hus⟩ := h
  exact ⟨us ++ xs, hus.trans ⟨o', hpath, rfl⟩⟩

theorem Reached.token {x : Lexeme} (h : src.Reached o) (hx : src.lexeme? o = some x) :
    src.Reached x.span.stop :=
  h.path (.cons hx (.nil _))

theorem Reached.skipBlanks (h : src.Reached o) : src.Reached (src.skipBlanks o) := by
  obtain ⟨us, m, hpath, hm⟩ := h
  exact ⟨us, m, hpath, by rw [hm, skipBlanks_idem]⟩

theorem Token.closes {kind : TokenKind} (h : src.Token kind o o')
    (hk : kind ≠ .symbol .identifierSeparator) : src.Closes o := by
  obtain ⟨x, hx, rfl, -⟩ := h
  intro y hy
  obtain rfl := Option.some.inj (hx.symm.trans hy)
  exact hk

theorem Token.reached {kind : TokenKind} (h : src.Token kind o o') (ho : src.Reached o) :
    src.Reached o' := by
  obtain ⟨x, hx, -, rfl⟩ := h
  exact ho.token hx

theorem closes_of_isSpent (h : src.isSpent o = true) : src.Closes o := by
  intro x hx
  rw [lexeme?_of_isSpent h] at hx
  cases hx

/-- Nothing goes on where a value begins. -/
theorem Path.closes {xs : List Lexeme} (h : src.Path o xs o')
    (hv : Language.IsValue (xs.map Lexeme.kind)) : src.Closes o := by
  obtain ⟨k, ks, hkinds, hk⟩ := Trial.exists_opener hv
  cases h with
  | nil _ => cases hkinds
  | cons head _ =>
      refine Token.closes ⟨_, head, (List.cons.inj hkinds).1, rfl⟩ ?_
      intro hdot
      rw [hdot] at hk
      revert hk
      decide

end Source

/-- A node begins with its first token. -/
theorem Source.Path.spanOf_eq {xs : List Lexeme} (h : src.Path o xs o') (hne : xs ≠ []) :
    src.spanOf o o' = ⟨src.skipBlanks o, o'⟩ := by
  obtain ⟨x, hx⟩ := List.exists_mem_of_ne_nil xs hne
  have := h.le_start x hx
  have := h.start_lt x hx
  rw [spanOf, Nat.min_eq_left (by omega)]

/-! ## The path of a trace -/

namespace Pattern

variable {ν : Type} {R : ν → Trace} {L : ν → List TokenKind → Prop}

/-- A pattern that takes no interest in where the source ends, and whose children are not
empty, if names look like what `L` says. -/
def Local (L : ν → List TokenKind → Prop) : Pattern ν → Prop
  | .token .. | .done | .never | .ref _ => True
  | .endOfInput | .ahead _ => False
  | .andThen p q | .orElse p q => p.Local L ∧ q.Local L
  | .optional p | .many p | .separated p _ | .andEdit p _ => p.Local L
  | .child p _ => p.Local L ∧ ∀ w, p.Spells L w → w ≠ []

/-- What is read on the rounds of a repetition, if what is read on each is of a certain
form. -/
theorem star_path {Q : Trace} {M : List TokenKind → Prop} (f : List TokenKind → List TokenKind)
    (h : Trace.Star Q o d o' d')
    (hQ : ∀ ⦃o d o' d'⦄, Q o d o' d' →
      ∃ xs u, src.Path o xs o' ∧ M u ∧ xs.map Lexeme.kind = f u) :
    ∃ (xs : List Lexeme) (us : List (List TokenKind)), src.Path o xs o' ∧ (∀ u ∈ us, M u) ∧
      xs.map Lexeme.kind = us.flatMap f := by
  induction h with
  | refl o d => exact ⟨[], [], .nil o, by simp, rfl⟩
  | step head _ ih =>
      obtain ⟨xs, u, hxs, hu, hfirst⟩ := hQ head
      obtain ⟨ys, us, hys, hus, hrest⟩ := ih
      refine ⟨xs ++ ys, u :: us, hxs.append hys, List.forall_mem_cons.2 ⟨hu, hus⟩, ?_⟩
      rw [List.map_append, hfirst, hrest, List.flatMap_cons]

theorem path_of_token {kind : TokenKind} (h : src.Token kind o o') :
    ∃ xs, src.Path o xs o' ∧ xs.map Lexeme.kind = [kind] := by
  obtain ⟨x, hx, rfl, rfl⟩ := h
  exact ⟨[x], .cons hx (.nil _), rfl⟩

/-- Between the offsets of a trace is a piece of the path that the pattern spells. -/
theorem Traces.path
    (hR : ∀ n ⦃o d o' d'⦄, R n o d o' d' → ∃ xs, src.Path o xs o' ∧ L n (xs.map Lexeme.kind))
    {p : Pattern ν} (hp : p.Local L) (h : p.Traces src R o d o' d') :
    ∃ xs, src.Path o xs o' ∧ p.Spells L (xs.map Lexeme.kind) := by
  induction p generalizing o d o' d' with
  | token kind note =>
      obtain ⟨x, hx, hk, hstop, -⟩ := h
      exact path_of_token ⟨x, hx, hk, hstop⟩
  | endOfInput => exact hp.elim
  | done =>
      obtain ⟨rfl, -⟩ := h
      exact ⟨[], .nil _, rfl⟩
  | never => exact h.elim
  | andThen p q ihp ihq =>
      obtain ⟨m, e, hp', hq'⟩ := h
      obtain ⟨xs, hxs, hu⟩ := ihp hp.1 hp'
      obtain ⟨ys, hys, hv⟩ := ihq hp.2 hq'
      exact ⟨xs ++ ys, hxs.append hys, _, _, List.map_append, hu, hv⟩
  | orElse p q ihp ihq =>
      rcases h with h | h
      · exact (ihp hp.1 h).imp fun _ hxs => ⟨hxs.1, .inl hxs.2⟩
      · exact (ihq hp.2 h).imp fun _ hxs => ⟨hxs.1, .inr hxs.2⟩
  | optional p ih =>
      rcases h with h | ⟨rfl, -⟩
      · exact (ih hp h).imp fun _ hxs => ⟨hxs.1, .inr hxs.2⟩
      · exact ⟨[], .nil _, .inl rfl⟩
  | many p ih =>
      obtain ⟨xs, us, hxs, hus, heq⟩ := star_path id h fun _ _ _ _ h =>
        (ih hp h).imp fun _ hxs => ⟨_, hxs.1, hxs.2, rfl⟩
      exact ⟨xs, hxs, us, hus, by simpa using heq⟩
  | separated item separator ih =>
      rcases h with ⟨rfl, -⟩ | ⟨m, e, m', hfirst, hmore, hlast⟩
      · exact ⟨[], .nil _, .inl rfl⟩
      · obtain ⟨xs, hxs, hfirst⟩ := ih hp hfirst
        obtain ⟨ys, rest, hys, hrest, heq⟩ := star_path (separator :: ·) hmore <| by
          intro o d o' d' h
          obtain ⟨k, hsep, hitem⟩ := h
          obtain ⟨zs, hzs, hk⟩ := path_of_token hsep
          obtain ⟨ws, hws, hw⟩ := ih hp hitem
          exact ⟨zs ++ ws, _, hzs.append hws, hw, by simp [hk]⟩
        rcases hlast with rfl | hlast
        · refine ⟨xs ++ ys, hxs.append hys, .inr ⟨_, rest, false, hfirst, hrest, ?_⟩⟩
          simp [heq, Language.maybe]
        · obtain ⟨zs, hzs, hk⟩ := path_of_token hlast
          refine ⟨xs ++ ys ++ zs, (hxs.append hys).append hzs,
            .inr ⟨_, rest, true, hfirst, hrest, ?_⟩⟩
          simp [heq, hk, Language.maybe]
  | ahead p _ => exact hp.elim
  | child p attach ih =>
      obtain ⟨e, h, -⟩ := h
      exact ih hp.1 h
  | andEdit p edit ih =>
      obtain ⟨e, h, -⟩ := h
      exact ih hp h
  | ref name => exact hR name h

/-- Rounds that stay on the path have the repetition stay on it. -/
theorem star_reached {Q T : Trace} (h : Trace.Star Q o d o' d') (ho : src.Reached o)
    (hQ : ∀ ⦃o d o' d'⦄, Q o d o' d' → src.Reached o → src.Reached o' ∧ T o d o' d') :
    src.Reached o' ∧ Trace.Star T o d o' d' := by
  induction h with
  | refl o d => exact ⟨ho, .refl o d⟩
  | step head _ ih =>
      obtain ⟨hm, head⟩ := hQ head ho
      obtain ⟨ho', tail⟩ := ih hm
      exact ⟨ho', .step head tail⟩

/-- What starts on the path stays on it, and so does all that it refers to. -/
theorem Traces.reached (hR : ∀ n ⦃o d o' d'⦄, src.Reached o → R n o d o' d' → src.Reached o')
    {p : Pattern ν} (h : p.Traces src R o d o' d') (ho : src.Reached o) :
    src.Reached o' ∧
      p.Traces src (fun n o d o' d' => src.Reached o ∧ R n o d o' d') o d o' d' := by
  induction p generalizing o d o' d' with
  | token kind note =>
      obtain ⟨x, hx, hk, rfl, hnote⟩ := h
      exact ⟨ho.token hx, x, hx, hk, rfl, hnote⟩
  | endOfInput =>
      obtain ⟨hend, rfl, rfl⟩ := h
      exact ⟨ho.skipBlanks, hend, rfl, rfl⟩
  | done =>
      obtain ⟨rfl, rfl⟩ := h
      exact ⟨ho, rfl, rfl⟩
  | never => exact h.elim
  | andThen p q ihp ihq =>
      obtain ⟨m, e, hp, hq⟩ := h
      obtain ⟨hm, hp⟩ := ihp hp ho
      obtain ⟨ho', hq⟩ := ihq hq hm
      exact ⟨ho', m, e, hp, hq⟩
  | orElse p q ihp ihq =>
      rcases h with h | h
      · exact (ihp h ho).imp_right Or.inl
      · exact (ihq h ho).imp_right Or.inr
  | optional p ih =>
      rcases h with h | ⟨rfl, rfl⟩
      · exact (ih h ho).imp_right Or.inl
      · exact ⟨ho, .inr ⟨rfl, rfl⟩⟩
  | many p ih => exact star_reached h ho fun _ _ _ _ => ih
  | separated item separator ih =>
      rcases h with ⟨rfl, rfl⟩ | ⟨m, e, m', hfirst, hmore, hlast⟩
      · exact ⟨ho, .inl ⟨rfl, rfl⟩⟩
      · obtain ⟨hm, hfirst⟩ := ih hfirst ho
        obtain ⟨hm', hmore⟩ := star_reached (T := Trace.separated src separator (item.Traces src
            fun n o d o' d' => src.Reached o ∧ R n o d o' d')) hmore hm <| by
          intro o d o' d' h hreached
          obtain ⟨k, hsep, hitem⟩ := h
          obtain ⟨hnext, hitem⟩ := ih hitem (hsep.reached hreached)
          exact ⟨hnext, k, hsep, hitem⟩
        refine ⟨?_, .inr ⟨m, e, m', hfirst, hmore, hlast⟩⟩
        rcases hlast with rfl | hlast
        · exact hm'
        · exact hlast.reached hm'
  | ahead p ih =>
      obtain ⟨m, h, rfl⟩ := h
      exact ⟨ho, m, (ih h ho).2, rfl⟩
  | child p attach ih =>
      obtain ⟨e, h, hattach⟩ := h
      exact (ih h ho).imp_right fun h => ⟨e, h, hattach⟩
  | andEdit p edit ih =>
      obtain ⟨e, h, hedit⟩ := h
      exact (ih h ho).imp_right fun h => ⟨e, h, hedit⟩
  | ref name => exact ⟨hR name ho h, ho, h⟩

/-! ## Runs inside of nodes -/

/-- A pattern that refers to others only as its children. -/
def Sheltered : Pattern ν → Prop
  | .token .. | .endOfInput | .done | .never | .child (.ref _) _ => True
  | .ref _ => False
  | .andThen p q | .orElse p q => p.Sheltered ∧ q.Sheltered
  | .optional p | .many p | .separated p _ | .ahead p | .child p _ | .andEdit p _ => p.Sheltered

end Pattern

/-- A matcher that is not there outside of a node. -/
def Matcher.inside (p : Matcher) : Matcher := fun start s =>
  if 0 < s.progress.depth then p start s else never start s

/-- What is referred to as a child is never asked for outside of a node. -/
theorem Pattern.run_inside {ν : Type} (env : ν → Matcher) {p : Pattern ν} (h : p.Sheltered) :
    p.run cx env = p.run cx fun n => (env n).inside := by
  induction p with
  | token | endOfInput | done | never => rfl
  | andThen p q ihp ihq | orElse p q ihp ihq =>
      funext start s
      simp only [run, ihp h.1, ihq h.2]
  | optional p ih | many p ih | separated p _ ih | ahead p ih | andEdit p _ ih =>
      funext start s
      simp only [run, ih h]
  | child p attach ih =>
      funext start s
      cases p with
      | ref name =>
          show Matcher.child cx (env name) attach start s = Matcher.child cx (env name).inside _ _ _
          rcases Nat.lt_or_ge s.progress.depth cx.limits.maxDepth with hroom | hfull
          · have hdeeper : (env name).inside start ⟨.blank, s.progress.deeper⟩ =
                env name start ⟨.blank, s.progress.deeper⟩ :=
              if_pos (Nat.succ_pos _)
            rw [Matcher.child_of_room hroom, Matcher.child_of_room hroom, hdeeper]
          · rw [Matcher.child_of_full hfull, Matcher.child_of_full hfull]
      | _ => exact congrArg (fun q => Matcher.child cx q attach start s) (ih h)
  | ref name => exact h.elim

namespace Grammar

/-- What a run of the matcher of values leaves that has at most so many levels of values in
it and is not outside of all nodes. -/
def Ran (cx : Context) (levels : Nat) : Trace := fun o d o' d' =>
  ∃ s t, 0 < s.progress.depth ∧ s.draft = d ∧ valueWithin cx levels o s = .ok o' t ∧ t.draft = d'

/-- What such a run leaves at an offset on the path. -/
def Placed (cx : Context) (levels : Nat) : Trace := fun o d o' d' =>
  cx.source.Reached o ∧ Ran cx levels o d o' d'

theorem inside_traced (cx : Context) (levels : Nat) :
    Matcher.Traced (Ran cx levels) (Matcher.inside (valueWithin cx levels)) := by
  intro start s stop t h
  rw [Matcher.inside] at h
  split at h
  · next hdepth => exact ⟨s, t, hdepth, rfl, h, rfl⟩
  · cases h

theorem isValue_ne_nil (w : List TokenKind) (h : Language.IsValue w) : w ≠ [] := by
  obtain ⟨k, ks, rfl, -⟩ := Trial.exists_opener h
  exact List.cons_ne_nil k ks

theorem ne_nil_of_isValue {xs : List Lexeme} (h : Language.IsValue (xs.map Lexeme.kind)) :
    xs ≠ [] := by
  rintro rfl
  exact isValue_ne_nil _ h rfl

theorem value_local : (value (.ref Nonterminal.value)).Local fun _ => Language.IsValue := by
  simp only [value, list, map, function, typeParameter, typeAlias, typeIdentity, discard, integer,
    identifierChain, string, wrapped, nested, entry, signature, clause, segment, Pattern.firstOf,
    Pattern.sequence, Pattern.mark, Pattern.word, Pattern.expect, Pattern.Local, Pattern.Spells,
    List.foldr_cons, List.foldr_nil, true_and, and_true, and_self]
  exact isValue_ne_nil

theorem identifierChain_local {L : Nonterminal → List TokenKind → Prop} :
    (identifierChain : Pattern Nonterminal).Local L :=
  ⟨trivial, ⟨trivial, trivial, trivial⟩, trivial⟩

/-- What is left of a value was read on a piece of the path. -/
theorem leaves_path {levels : Nat} (h : Leaves src levels o d o' d') :
    ∃ xs, src.Path o xs o' ∧ Language.IsValue (xs.map Lexeme.kind) := by
  induction levels generalizing o d o' d' with
  | zero => exact h.elim
  | succ levels ih =>
      obtain ⟨xs, hxs, hw⟩ := Pattern.Traces.path (L := fun _ => Language.IsValue)
        (fun _ _ _ _ _ => ih) value_local h
      exact ⟨xs, hxs, Language.isValue_of_spells (fun _ => id) hw⟩

theorem Ran.path {levels : Nat} (h : Ran cx levels o d o' d') :
    ∃ xs, cx.source.Path o xs o' ∧ Language.IsValue (xs.map Lexeme.kind) := by
  obtain ⟨s, t, -, rfl, hrun, rfl⟩ := h
  exact leaves_path (valueWithin_traced cx levels hrun)

theorem value_sheltered : (value (.ref Nonterminal.value)).Sheltered := by
  simp [value, list, map, function, typeParameter, typeAlias, typeIdentity, discard, integer,
    identifierChain, string, wrapped, nested, entry, signature, clause, segment, Pattern.firstOf,
    Pattern.sequence, Pattern.mark, Pattern.word, Pattern.expect, Pattern.Sheltered]

theorem module_sheltered : («module» (.ref Nonterminal.value)).Sheltered := by
  simp [«module», useStatement, identifierChain, segment, entry, Pattern.sequence, Pattern.mark,
    Pattern.word, Pattern.expect, Pattern.Sheltered]

/-- A run on the path leaves the trace of its pattern, in which every value inside was left
by such a run. -/
theorem traces_of_run {levels : Nat} {p : Pattern Nonterminal} (hp : p.Sheltered)
    (htidy : ∀ R, p.Tidy cx.source R) {s t : State} (ho : cx.source.Reached o)
    (h : p.run cx (fun _ => valueWithin cx levels) o s = .ok o' t) :
    p.Traces cx.source (fun _ => Placed cx levels) o s.draft o' t.draft := by
  rw [Pattern.run_inside _ hp] at h
  have htraced := (Pattern.run_traced (R := fun _ => Ran cx levels)
    (fun _ => inside_traced cx levels) (htidy _)).1 h
  refine (htraced.reached (fun _ _ _ _ _ hreached hran => ?_) ho).2
  obtain ⟨xs, hxs, -⟩ := hran.path
  exact hreached.path hxs

theorem Placed.value {levels : Nat} (h : Placed cx (levels + 1) o d o' d') :
    (value (.ref Nonterminal.value)).Traces cx.source (fun _ => Placed cx levels) o d o' d' := by
  obtain ⟨ho, s, t, -, rfl, hrun, rfl⟩ := h
  exact traces_of_run value_sheltered (fun _ => value_tidy ref_tidy) ho hrun

end Grammar

/-- A node that was made of what a run of the matcher of values left at an offset on the
path, and behind which no chain goes on. -/
def Node.Built (cx : Context) (n : Node) : Prop :=
  ∃ levels o stop e, levels ≤ cx.limits.maxDepth + 2 ∧ cx.source.Closes stop ∧
    Grammar.Placed cx levels o .blank stop e ∧ n = e.finish (cx.source.spanOf o stop)

end WeLang
