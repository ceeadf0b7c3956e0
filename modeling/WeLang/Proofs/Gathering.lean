import WeLang.Proofs.Carrying
import WeLang.Proofs.Choosing

/-!
# Values one behind the other

A list, a map and a function are read by gathering values, one behind the other, into one
draft. Where one part ends and the next begins there may be blanks, which belong to neither,
so it is best to speak of what a matcher does up to blanks (`Matcher.Crosses`): that can be
put together without asking who has read the blanks. What is known of a single value is where
it stands and the node that every run makes of it (`Matcher.Stands`); what is known of a row of
them is that each is led by a gap, which is a separator or nothing but blanks (`Led`).

From this follows what every run leaves of the items of a list (`Matcher.crosses_items`), of
the entries of a map (`Led.rows`) and of the clauses of a function (`Matcher.crosses_clauses`).
A signature is tried before the clauses. It looks like the beginning of a value, and it takes
three tokens to see that it is not there (`Matcher.misses_signature`).
-/

namespace WeLang

open WeLang.Language Grammar

variable {cx : Context} {src : Source} {i o m k o' δ : Nat} {d d₁ d' : Draft} {x : Lexeme}
  {n : Node} {ns : List Node}

/-- Two offsets with nothing but blanks between. -/
def Source.Gap (src : Source) (o o' : Nat) : Prop :=
  src.skipBlanks o = src.skipBlanks o'

/-- A token is read from wherever only blanks come before it. -/
theorem Source.Token.of_gap {kind : TokenKind} (h : src.Token kind m o') (hgap : src.Gap o m) :
    src.Token kind o o' := by
  obtain ⟨x, hx, hk, hstop⟩ := h
  exact ⟨x, (lexeme?_congr hgap).trans hx, hk, hstop⟩

/-- Parts, one behind the other, each of which is led by a gap. -/
inductive Led {α : Type} (G : Nat → Nat → Prop) (R : Nat → α → Nat → Prop) :
    Nat → List α → Nat → Prop
  | nil (o : Nat) : Led G R o [] o
  | cons {o m k o' : Nat} {a : α} {as : List α} (gap : G o m) (part : R m a k)
      (tail : Led G R k as o') : Led G R o (a :: as) o'

/-- An offset behind which a clause is over. -/
def Source.Shuts (src : Source) (o : Nat) : Prop :=
  ∃ x, src.lexeme? o = some x ∧
    (x.kind = .symbol .clauseSeparator ∨ x.kind = .symbol .functionEnd)

theorem Source.Shuts.exists_not_opener (h : src.Shuts o) :
    ∃ x, src.lexeme? o = some x ∧ x.kind ∉ Trial.openers := by
  obtain ⟨x, hx, hk⟩ := h
  refine ⟨x, hx, ?_⟩
  rcases hk with hk | hk <;>
    · rw [hk]
      decide

theorem Source.Token.shuts (h : src.Token (.symbol .functionEnd) o o') : src.Shuts o := by
  obtain ⟨x, hx, hk, -⟩ := h
  exact ⟨x, hx, .inr hk⟩

/-- If the last of some clauses is over, what comes before them is over as well. -/
theorem Led.shuts {α : Type} {R : Nat → α → Nat → Prop} {as : List α}
    (h : Led (src.Token (.symbol .clauseSeparator)) R o as o') (hend : src.Shuts o') :
    src.Shuts o := by
  cases h with
  | nil _ => exact hend
  | cons gap _ _ =>
      obtain ⟨x, hx, hk, -⟩ := gap
      exact ⟨x, hx, .inl hk⟩

namespace Draft

/-- A draft with some more children. -/
def withChildren (d : Draft) (ns : List Node) : Draft :=
  { d with children := d.children ++ ns.toArray }

@[simp] theorem withChildren_nil (d : Draft) : d.withChildren [] = d := by
  simp [withChildren]

theorem withChildren_append (d : Draft) (ns ns' : List Node) :
    d.withChildren (ns ++ ns') = (d.withChildren ns).withChildren ns' := by
  simp [withChildren]

theorem pushChild_eq (n : Node) (d : Draft) : pushChild n d = .ok () (d.withChildren [n]) := by
  show EStateM.Result.ok () _ = .ok () _
  simp [withChildren]

/-- Children that were added last are put into the opposite order. -/
theorem reverseChildrenFrom_withChildren (d : Draft) (ns : List Node) :
    (d.withChildren ns).reverseChildrenFrom d.children.size = d.withChildren ns.reverse := by
  simp [withChildren, reverseChildrenFrom]

/-- A draft whose edges are known. -/
def withEdges (d : Draft) (input output : String) : Draft :=
  { d with inType := some (.leaf input), outType := some (.leaf output) }

end Draft

namespace Matcher

variable {p q item : Matcher} {separator : TokenKind} {E : ParseError.Cause → Prop}

/-! ## Up to blanks -/

/-- Every run that begins at an offset, or among the blanks around it, ends at another, or
among the blanks around that. -/
def Crosses (cx : Context) (δ : Nat) (p : Matcher) : Trace := fun o d o' d' =>
  ∀ i, cx.source.Gap i o → ∃ j, cx.source.Gap j o' ∧ Goes δ p i d j d'

theorem crosses_done (h : cx.source.Gap o o') : Crosses cx δ done o d o' d :=
  fun i hi => ⟨i, hi.trans h, goes_done⟩

theorem crosses_andThen (hp : Crosses cx δ p o d m d₁) (hq : Crosses cx δ q m d₁ o' d') :
    Crosses cx δ (andThen p q) o d o' d' := by
  intro i hi
  obtain ⟨j, hj, hfirst⟩ := hp i hi
  obtain ⟨k, hk, hsecond⟩ := hq j hj
  exact ⟨k, hk, goes_andThen hfirst hsecond⟩

theorem crosses_andEdit {edit : Draft → Edit} (hp : Crosses cx δ p o d o' d₁)
    (hedit : edit d d₁ = .ok () d') : Crosses cx δ (andEdit p edit) o d o' d' := by
  intro i hi
  obtain ⟨j, hj, hgoes⟩ := hp i hi
  exact ⟨j, hj, goes_andEdit hgoes hedit⟩

theorem crosses_optional (hp : Crosses cx δ p o d o' d') :
    Crosses cx δ (optional p) o d o' d' := by
  intro i hi
  obtain ⟨j, hj, hgoes⟩ := hp i hi
  exact ⟨j, hj, goes_optional hgoes⟩

theorem crosses_optional_of_misses (h : ∀ i, cx.source.Gap i o → Misses δ p i d) :
    Crosses cx δ (optional p) o d o d :=
  fun i hi => ⟨i, hi, goes_optional_of_misses (h i hi)⟩

theorem crosses_token {note : Lexeme → Edit} (hsteps : cx.limits.maxSteps = none)
    (hx : cx.source.lexeme? o = some x) (hnote : note x d = .ok () d') :
    Crosses cx δ (token cx x.kind note) o d x.span.stop d' :=
  fun _ hi => ⟨x.span.stop, rfl, goes_token hsteps ((Source.lexeme?_congr hi).trans hx) hnote⟩

theorem crosses_expect {kind : TokenKind} (hsteps : cx.limits.maxSteps = none)
    (h : cx.source.Token kind o o') : Crosses cx δ (expect cx kind) o d o' d := by
  obtain ⟨x, hx, rfl, rfl⟩ := h
  exact crosses_token hsteps hx rfl

theorem Goes.le (hp : Lawful cx E p) (h : Goes δ p o d o' d') : o ≤ o' := by
  obtain ⟨r, -, hrun⟩ := h { depth := δ } rfl
  exact (hp.of_ok hrun).1

theorem Crosses.le (hp : Lawful cx E p) (h : Crosses cx δ p o d o' d') :
    cx.source.skipBlanks o ≤ cx.source.skipBlanks o' := by
  obtain ⟨j, hj, hgoes⟩ := h o rfl
  have hmono := cx.source.skipBlanks_mono (hgoes.le hp)
  rwa [hj] at hmono

/-- What is behind a token is not in the gap before it. -/
theorem not_gap_of_token {kind : TokenKind} (h : src.Token kind o m)
    (hle : src.skipBlanks m ≤ src.skipBlanks o') : ¬ src.Gap o o' := by
  intro hgap
  have hlt := h.lt
  have hm := src.le_skipBlanks m
  have hgap : src.skipBlanks o = src.skipBlanks o' := hgap
  omega

theorem crosses_many_of_lacks (h : ∀ i, cx.source.Gap i o → Lacks δ p i d) :
    Crosses cx δ (many cx p) o d o d :=
  fun i hi => ⟨i, hi, goes_many_of_lacks (h i hi)⟩

/-- One more round of a repetition, in which something is read that is no blank. -/
theorem Crosses.many_crosses (hp : Lawful cx E p) (h : Crosses cx δ p o d m d₁)
    (hfar : ¬ cx.source.Gap o m) (hrest : Crosses cx δ (many cx p) m d₁ o' d') :
    Crosses cx δ (many cx p) o d o' d' := by
  intro i hi
  obtain ⟨j, hj, hgoes⟩ := h i hi
  obtain ⟨k, hk, hmore⟩ := hrest j hj
  have hne : i ≠ j := by
    intro heq
    subst heq
    exact hfar (hi.symm.trans hj)
  exact ⟨k, hk, hgoes.many_goes hp (Nat.lt_of_le_of_ne (hgoes.le hp) hne) hmore⟩

theorem crosses_separated (hitem : Crosses cx δ item o d m d₁)
    (hrest : Crosses cx δ (further cx item separator) m d₁ o' d') :
    Crosses cx δ (separated cx item separator) o d o' d' := by
  intro i hi
  obtain ⟨j, hj, hfirst⟩ := hitem i hi
  obtain ⟨k, hk, hmore⟩ := hrest j hj
  exact ⟨k, hk, goes_separated hfirst hmore⟩

theorem crosses_separated_of_lacks (h : ∀ i, cx.source.Gap i o → Lacks δ item i d) :
    Crosses cx δ (separated cx item separator) o d o d :=
  fun i hi => ⟨i, hi, goes_separated_of_lacks (h i hi)⟩

theorem crosses_further (hsteps : cx.limits.maxSteps = none) (hlawful : Lawful cx E item)
    (hseparator : cx.source.Token separator o m) (hitem : Crosses cx δ item m d k d₁)
    (hrest : Crosses cx δ (further cx item separator) k d₁ o' d') :
    Crosses cx δ (further cx item separator) o d o' d' := by
  intro i hi
  obtain ⟨j, hj, hgoes⟩ := hitem m rfl
  obtain ⟨j', hj', hmore⟩ := hrest j hj
  exact ⟨j', hj', goes_further hsteps (hseparator.of_gap hi) hgoes (hgoes.le hlawful) hmore⟩

/-- Behind the last item there may be a separator. -/
theorem crosses_further_trailing (hsteps : cx.limits.maxSteps = none)
    (hseparator : cx.source.Token separator o m) (hitem : Lacks δ item m d) :
    Crosses cx δ (further cx item separator) o d m d :=
  fun _ hi => ⟨m, rfl, goes_further_trailing hsteps (hseparator.of_gap hi) hitem⟩

theorem crosses_further_of_ne (hsteps : cx.limits.maxSteps = none)
    (hx : cx.source.lexeme? o = some x) (hk : separator ≠ x.kind) :
    Crosses cx δ (further cx item separator) o d o d := by
  intro i hi
  have hnone := Source.not_answers_of_lexeme? ((Source.lexeme?_congr hi).trans hx) hk
  exact ⟨i, hi, goes_further_of_lacks (lacks_token hsteps hnone)⟩

/-! ## A value where it stands -/

/-- A value with nothing but blanks around it between two offsets: its tokens, and the node
that every run makes of it. -/
def Stands (cx : Context) (δ o : Nat) (n : Node) (o' : Nat) : Prop :=
  ∃ xs k, cx.source.Path o xs k ∧ IsValue (xs.map Lexeme.kind) ∧ cx.source.Gap k o' ∧
    ∀ i, cx.source.Gap i o → Makes cx δ (anyValue cx) i n k

/-- What is in a row is a child. -/
abbrev anyChild (cx : Context) : Matcher :=
  child cx (anyValue cx) Draft.pushChild

theorem anyChild_lawful (cx : Context) : Lawful cx (·.isFatal = true) (anyChild cx) :=
  child_lawful (refusals_fatal cx) (valueWithin_lawful cx _) fun _ => .modify _

theorem path_opens {xs : List Lexeme} (h : src.Path o xs o')
    (hvalue : IsValue (xs.map Lexeme.kind)) :
    ∃ x rest, xs = x :: rest ∧ src.lexeme? o = some x ∧ x.kind ∈ Trial.openers := by
  obtain ⟨kind, kinds, hkinds, hopener⟩ := Trial.exists_opener hvalue
  cases h with
  | nil _ => cases hkinds
  | @cons _ _ x rest head _ =>
      obtain ⟨rfl, -⟩ := List.cons.inj hkinds
      exact ⟨x, rest, rfl, head, hopener⟩

namespace Stands

theorem opens (h : Stands cx δ o n o') :
    ∃ x, cx.source.lexeme? o = some x ∧ x.kind ∈ Trial.openers := by
  obtain ⟨xs, k, hpath, hvalue, -, -⟩ := h
  obtain ⟨x, rest, -, hx, hk⟩ := path_opens hpath hvalue
  exact ⟨x, hx, hk⟩

theorem not_gap (h : Stands cx δ o n o') : ¬ cx.source.Gap o o' := by
  obtain ⟨xs, k, hpath, hvalue, hk, -⟩ := h
  obtain ⟨x, rest, rfl, hx, -⟩ := path_opens hpath hvalue
  cases hpath with
  | cons head tail =>
      have htoken : cx.source.Token x.kind o x.span.stop := ⟨x, head, rfl, rfl⟩
      have hmono := cx.source.skipBlanks_mono tail.le
      have hle := cx.source.skipBlanks_mono (Nat.le_of_add_right_le tail.le)
      rw [show cx.source.skipBlanks k = cx.source.skipBlanks o' from hk] at hle
      exact not_gap_of_token htoken hle

theorem crosses (h : Stands cx δ o n o') :
    Crosses cx δ (anyChild cx) o d o' (d.withChildren [n]) := by
  obtain ⟨xs, k, -, -, hk, hmakes⟩ := h
  exact fun i hi => ⟨k, hk, goes_child (hmakes i hi) (Draft.pushChild_eq n d)⟩

end Stands

/-- Where no value begins there is no child, if there is room for one. -/
theorem lacks_anyChild (hsteps : cx.limits.maxSteps = none) (hroom : δ < cx.limits.maxDepth)
    (hx : cx.source.lexeme? o = some x) (hk : x.kind ∉ Trial.openers) (hi : cx.source.Gap i o) :
    Lacks δ (anyChild cx) i d :=
  lacks_child hroom (lacks_value hsteps ((Source.lexeme?_congr hi).trans hx) hk)

/-! ## Lists -/

theorem crosses_rest (hsteps : cx.limits.maxSteps = none)
    (h : Led (cx.source.Token separator) (Stands cx δ) o ns m)
    (hend : ∀ d, Crosses cx δ (further cx (anyChild cx) separator) m d o' d) :
    Crosses cx δ (further cx (anyChild cx) separator) o d o' (d.withChildren ns) := by
  induction h generalizing d with
  | nil o =>
      rw [Draft.withChildren_nil]
      exact hend d
  | @cons _ _ _ _ n ns gap part _ ih =>
      rw [← List.singleton_append, Draft.withChildren_append]
      exact crosses_further hsteps (anyChild_lawful cx) gap part.crosses (ih hend)

/-- Items with separators between. -/
theorem crosses_items (hsteps : cx.limits.maxSteps = none) (hfirst : Stands cx δ o n k)
    (hrest : Led (cx.source.Token separator) (Stands cx δ) k ns m)
    (hend : ∀ d, Crosses cx δ (further cx (anyChild cx) separator) m d o' d) :
    Crosses cx δ (separated cx (anyChild cx) separator) o d o' (d.withChildren (n :: ns)) := by
  rw [← List.singleton_append, Draft.withChildren_append]
  exact crosses_separated hfirst.crosses (crosses_rest hsteps hrest hend)

/-- A list whose items are known. -/
theorem crosses_list (hsteps : cx.limits.maxSteps = none)
    (hopen : cx.source.Token (.symbol .listStart) o m)
    (hitems : Crosses cx δ (separated cx (anyChild cx) (.symbol .listSeparator)) m .blank k
      (Draft.blank.withChildren ns))
    (hclose : cx.source.Token (.symbol .listEnd) k o') :
    Crosses cx δ ((list (.ref .value)).run cx (meaning cx)) o .blank o'
      (Draft.blank.withChildren ns).completeList := by
  refine crosses_andEdit ?_ rfl
  exact crosses_andThen (crosses_expect hsteps hopen)
    (crosses_andThen hitems (crosses_andThen (crosses_expect hsteps hclose) (crosses_done rfl)))

/-! ## Functions -/

theorem crosses_values (hsteps : cx.limits.maxSteps = none) (hroom : δ < cx.limits.maxDepth)
    (h : Led cx.source.Gap (Stands cx δ) o ns o') (hx : cx.source.lexeme? o' = some x)
    (hk : x.kind ∉ Trial.openers) :
    Crosses cx δ (many cx (anyChild cx)) o d o' (d.withChildren ns) := by
  induction h generalizing d with
  | nil o =>
      rw [Draft.withChildren_nil]
      exact crosses_many_of_lacks fun _ => lacks_anyChild hsteps hroom hx hk
  | @cons o m k _ n ns gap part _ ih =>
      rw [← List.singleton_append, Draft.withChildren_append]
      have hfar : ¬ cx.source.Gap o k := fun hgap => part.not_gap (gap.symm.trans hgap)
      have hchild : Crosses cx δ (anyChild cx) o d k (d.withChildren [n]) :=
        fun i hi => part.crosses i (hi.trans gap)
      exact hchild.many_crosses (anyChild_lawful cx) hfar (ih hx)

/-- What a clause is read by. -/
abbrev anyClause (cx : Context) : Matcher :=
  (clause (.ref .value)).run cx (meaning cx)

theorem anyClause_lawful (cx : Context) : Lawful cx (·.isFatal = true) (anyClause cx) :=
  Pattern.run_lawful (refusals_fatal cx) (meaning_lawful cx) (clause_honest ref_honest)

theorem crosses_clause (hsteps : cx.limits.maxSteps = none) (hroom : δ < cx.limits.maxDepth)
    (h : Led cx.source.Gap (Stands cx δ) o ns o') (hx : cx.source.lexeme? o' = some x)
    (hk : x.kind ∉ Trial.openers) :
    Crosses cx δ (anyClause cx) o d o' (d.withChildren ns.reverse) := by
  refine crosses_andEdit (crosses_values hsteps hroom h hx hk) ?_
  exact congrArg _ (Draft.reverseChildrenFrom_withChildren d ns)

/-- What a clause behind another is read by. -/
abbrev furtherClause (cx : Context) : Matcher :=
  andThen (expect cx (.symbol .clauseSeparator)) (andThen (anyClause cx) done)

theorem furtherClause_lawful (cx : Context) :
    Lawful cx (·.isFatal = true) (furtherClause cx) :=
  andThen_lawful (expect_lawful cx _) (andThen_lawful (anyClause_lawful cx) done_lawful)

/-- Clauses behind the first: each leaves its values in the opposite order. -/
theorem crosses_clauses {nss : List (List Node)} (hsteps : cx.limits.maxSteps = none)
    (hroom : δ < cx.limits.maxDepth)
    (h : Led (cx.source.Token (.symbol .clauseSeparator)) (Led cx.source.Gap (Stands cx δ))
      o nss o')
    (hend : cx.source.Token (.symbol .functionEnd) o' m) :
    Crosses cx δ (many cx (furtherClause cx)) o d o'
      (d.withChildren (nss.flatMap List.reverse)) := by
  obtain ⟨x, hx, hk, -⟩ := id hend
  induction h generalizing d with
  | nil o =>
      rw [List.flatMap_nil, Draft.withChildren_nil]
      refine crosses_many_of_lacks fun i hi => lacks_andThen (lacks_token hsteps ?_)
      refine Source.not_answers_of_lexeme? ((Source.lexeme?_congr hi).trans hx) ?_
      rw [hk]
      simp
  | @cons o m k _ ns nss gap part tail ih =>
      obtain ⟨y, hy, hopener⟩ := (tail.shuts hend.shuts).exists_not_opener
      rw [List.flatMap_cons, Draft.withChildren_append]
      have hclause : Crosses cx δ (anyClause cx) m d k (d.withChildren ns.reverse) :=
        crosses_clause hsteps hroom part hy hopener
      have hround : Crosses cx δ (furtherClause cx) o d k (d.withChildren ns.reverse) :=
        crosses_andThen (crosses_expect hsteps gap) (crosses_andThen hclause (crosses_done rfl))
      have hfar := not_gap_of_token gap (hclause.le (anyClause_lawful cx))
      exact hround.many_crosses (furtherClause_lawful cx) hfar (ih hend hx)

/-- What a signature is read by. -/
abbrev anySignature (cx : Context) : Matcher :=
  (signature : Pattern Nonterminal).run cx (meaning cx)

/-- The two names of a signature are the edges. -/
theorem crosses_signature {y : Lexeme} (hsteps : cx.limits.maxSteps = none)
    (hopen : cx.source.Token (.symbol .typeParameterStart) o m)
    (hx : cx.source.lexeme? m = some x) (hxname : x.kind = .identifier)
    (hy : cx.source.lexeme? x.span.stop = some y) (hyname : y.kind = .identifier)
    (hclose : cx.source.Token (.symbol .typeParameterEnd) y.span.stop o') :
    Crosses cx δ (anySignature cx) o d o' (d.withEdges x.text y.text) := by
  have hinput : Crosses cx δ (token cx .identifier fun z =>
      modify fun d => { d with inType := some (.leaf z.text) }) m d x.span.stop
      { d with inType := some (.leaf x.text) } := by
    rw [← hxname]
    exact crosses_token hsteps hx rfl
  have houtput : Crosses cx δ (token cx .identifier fun z =>
      modify fun d => { d with outType := some (.leaf z.text) }) x.span.stop
      { d with inType := some (.leaf x.text) } y.span.stop (d.withEdges x.text y.text) := by
    rw [← hyname]
    exact crosses_token hsteps hy rfl
  exact crosses_andThen (crosses_expect hsteps hopen) (crosses_andThen hinput
    (crosses_andThen houtput (crosses_andThen (crosses_expect hsteps hclose) (crosses_done rfl))))

/-- In a value that begins as a signature does, there are no two names behind the mark. -/
theorem exists_not_names {kinds : List TokenKind}
    (h : IsValue (.symbol .typeParameterStart :: kinds)) :
    ∃ y z rest, kinds = y :: z :: rest ∧ (y = .identifier → z ≠ .identifier) := by
  obtain ⟨input, more, hinput, rfl⟩ := Trial.typeParameter_of_isValue h
  obtain ⟨y, rest, rfl, -⟩ := Trial.exists_opener hinput
  cases rest with
  | nil => exact ⟨y, .symbol .listSeparator, more, rfl, by simp⟩
  | cons z rest =>
      refine ⟨y, z, rest ++ .symbol .listSeparator :: more, rfl, fun hy => ?_⟩
      subst hy
      -- what goes on behind the first name of a chain is a dot
      obtain ⟨count, hdotted⟩ := Trial.chain_of_isValue hinput
      cases count with
      | zero => cases hdotted
      | succ count =>
          obtain ⟨hz, -⟩ := List.cons.inj hdotted
          simp [hz]

/-- A signature is not there where a value is, though the first two of its tokens may be. -/
theorem misses_signature {xs : List Lexeme} (hsteps : cx.limits.maxSteps = none)
    (hpath : cx.source.Path o xs k) (hvalue : IsValue (xs.map Lexeme.kind))
    (hi : cx.source.Gap i o) : Misses δ (anySignature cx) i d := by
  obtain ⟨x, rest, rfl, hx, -⟩ := path_opens hpath hvalue
  have hxi : cx.source.lexeme? i = some x := (Source.lexeme?_congr hi).trans hx
  by_cases hopen : x.kind = .symbol .typeParameterStart
  · have hmark : Goes δ (expect cx (.symbol .typeParameterStart)) i d x.span.stop d :=
      goes_expect hsteps ⟨x, hxi, hopen, rfl⟩
    refine hmark.andThen_misses (.refl d) ?_
    rw [List.map_cons, hopen] at hvalue
    obtain ⟨_, _, _, hkinds, hnames⟩ := exists_not_names hvalue
    obtain ⟨y, tail, rfl, rfl, htail⟩ := List.map_eq_cons_iff.1 hkinds
    obtain ⟨z, tail, rfl, rfl, -⟩ := List.map_eq_cons_iff.1 htail
    obtain ⟨hy, hz⟩ : cx.source.lexeme? x.span.stop = some y ∧
        cx.source.lexeme? y.span.stop = some z := by
      cases hpath with
      | cons _ hpath =>
          cases hpath with
          | cons hy hpath =>
              cases hpath with
              | cons hz _ => exact ⟨hy, hz⟩
    by_cases hname : y.kind = .identifier
    · have hinput : Goes δ (token cx .identifier fun z =>
          modify fun d => { d with inType := some (.leaf z.text) }) x.span.stop d y.span.stop
          { d with inType := some (.leaf y.text) } := by
        rw [← hname]
        exact goes_token hsteps hy rfl
      refine hinput.andThen_misses { Draft.Extends.refl d with } ?_
      have hnone := Source.not_answers_of_lexeme? hz (hnames hname).symm
      exact (lacks_andThen (lacks_token hsteps hnone)).misses
    · have hnone := Source.not_answers_of_lexeme? hy (Ne.symm hname)
      exact (lacks_andThen (lacks_token hsteps hnone)).misses
  · have hnone := Source.not_answers_of_lexeme? hxi (Ne.symm hopen)
    exact (lacks_andThen (lacks_token hsteps hnone)).misses

/-- Nor is it there where a clause is. -/
theorem crosses_no_signature (hsteps : cx.limits.maxSteps = none)
    (h : Led cx.source.Gap (Stands cx δ) o ns k) (hend : cx.source.Shuts k) :
    Crosses cx δ (optional (anySignature cx)) o d o d := by
  refine crosses_optional_of_misses fun i hi => ?_
  cases h with
  | nil _ =>
      obtain ⟨x, hx, hk⟩ := hend
      have hxi : cx.source.lexeme? i = some x := (Source.lexeme?_congr hi).trans hx
      have hother : (.symbol .typeParameterStart : TokenKind) ≠ x.kind := by
        rcases hk with hk | hk <;>
          simp [hk]
      exact (lacks_andThen (lacks_token hsteps (Source.not_answers_of_lexeme? hxi hother))).misses
  | cons gap part _ =>
      obtain ⟨xs, k, hpath, hvalue, -, -⟩ := part
      exact misses_signature hsteps hpath hvalue (hi.trans gap)

/-- A function behind its opening mark, with or without edges of its own. -/
theorem crosses_function {nss : List (List Node)} {d₂ : Draft} {m₁ m₂ : Nat}
    (hsteps : cx.limits.maxSteps = none) (hroom : δ < cx.limits.maxDepth)
    (hword : Crosses cx δ (optional (expect cx (.keyword .fnWord))) o .blank m .blank)
    (hopen : cx.source.Token (.symbol .functionStart) m m₁)
    (hedges : Crosses cx δ (optional (anySignature cx)) m₁ .blank m₂ d₂)
    (hfirst : Led cx.source.Gap (Stands cx δ) m₂ ns i)
    (hrest : Led (cx.source.Token (.symbol .clauseSeparator))
      (Led cx.source.Gap (Stands cx δ)) i nss k)
    (hclose : cx.source.Token (.symbol .functionEnd) k o') :
    Crosses cx δ ((function (.ref .value)).run cx (meaning cx)) o .blank o'
      (d₂.withChildren ((ns :: nss).flatMap List.reverse)).completeFunction := by
  obtain ⟨x, hx, hopener⟩ := (hrest.shuts hclose.shuts).exists_not_opener
  have hclauses : Crosses cx δ (many cx (furtherClause cx)) i (d₂.withChildren ns.reverse) k
      (d₂.withChildren ((ns :: nss).flatMap List.reverse)) := by
    rw [List.flatMap_cons, Draft.withChildren_append]
    exact crosses_clauses hsteps hroom hrest hclose
  refine crosses_andEdit ?_ rfl
  exact crosses_andThen hword (crosses_andThen (crosses_expect hsteps hopen)
    (crosses_andThen hedges (crosses_andThen (crosses_clause hsteps hroom hfirst hx hopener)
      (crosses_andThen hclauses
        (crosses_andThen (crosses_expect hsteps hclose) (crosses_done rfl))))))

/-! ## Maps -/

/-- An entry with nothing but blanks around it: its key, and its value behind it. -/
def EntryStands (cx : Context) (δ o : Nat) (row : Lexeme × Node) (o' : Nat) : Prop :=
  ∃ m k, cx.source.Key o row.1 m ∧ cx.source.Gap m k ∧ Stands cx δ k row.2 o'

variable {rows pre post : List (Lexeme × Node)}

/-- Entries up to blanks are rows of entries. -/
theorem exists_rows (h : Led cx.source.Gap (EntryStands cx δ) o rows o')
    (hi : cx.source.Gap i o) :
    ∃ j, cx.source.Gap j o' ∧ cx.source.Rows (Makes cx δ (anyValue cx)) i rows j := by
  induction h generalizing i with
  | nil o => exact ⟨i, hi, .nil i⟩
  | cons gap part _ ih =>
      obtain ⟨m, k, hkey, hgap, hstands⟩ := part
      obtain ⟨xs, stop, -, -, hstop, hmakes⟩ := hstands
      obtain ⟨j, hj, hrows⟩ := ih hstop
      exact ⟨j, hj, .cons (hkey.congr (hi.trans gap).symm) (hmakes m hgap) hrows⟩

/-- A map of entries with different keys. -/
theorem crosses_map (hsteps : cx.limits.maxSteps = none)
    (hopen : cx.source.Token (.symbol .mapStart) o m)
    (hrows : Led cx.source.Gap (EntryStands cx δ) m rows k)
    (hclose : cx.source.Token (.symbol .mapEnd) k o') (hkeys : (rows.map (·.1.text)).Nodup) :
    Crosses cx δ ((map (.ref .value)).run cx (meaning cx)) o .blank o'
      (Draft.blank.withRows rows).completeMap := by
  have hentries : Crosses cx δ (many cx (anyEntry cx)) m .blank k (Draft.blank.withRows rows) := by
    intro i hi
    obtain ⟨j, hj, hread⟩ := exists_rows hrows hi
    obtain ⟨x, hx, hk, -⟩ := id hclose
    have hxj : cx.source.lexeme? j = some x := (Source.lexeme?_congr hj).trans hx
    have hnone := Source.not_answers_of_lexeme? (k := .identifier) hxj (by simp [hk])
    exact ⟨j, hj, goes_rows hsteps hread hkeys hnone⟩
  refine crosses_andEdit ?_ rfl
  exact crosses_andThen (crosses_expect hsteps hopen)
    (crosses_andThen hentries (crosses_andThen (crosses_expect hsteps hclose) (crosses_done rfl)))

/-- The first key that is there already breaks a map off. -/
theorem fails_map (hsteps : cx.limits.maxSteps = none)
    (hopen : cx.source.Token (.symbol .mapStart) o m)
    (hrows : Led cx.source.Gap (EntryStands cx δ) m (pre ++ (x, n) :: post) k)
    (hkeys : (pre.map (·.1.text)).Nodup) (hold : x.text ∈ pre.map (·.1.text)) :
    Fails δ ((map (.ref .value)).run cx (meaning cx)) o .blank
      { cause := .duplicateKey x.text, span := x.span } := by
  obtain ⟨j, -, hread⟩ := exists_rows hrows rfl
  exact fails_andEdit ((goes_expect hsteps hopen).andThen_fails
    (fails_andThen (fails_rows hsteps hread hkeys hold)))

end Matcher

/-! ## Whole sources -/

open Matcher

/-- A value that every run comes to the end of, by the alternative that its first token belongs
to, is what the source is parsed as. -/
theorem Parse.ok_of_crosses {s : Source} {l : Limits} {p : Pattern Nonterminal}
    (hsteps : l.maxSteps = none) (hroom : 0 < l.maxDepth) (hx : s.lexeme? 0 = some x)
    (halt : ∃ a ∈ Trial.alternatives, a.2 = p ∧ x.kind ∈ a.1)
    (h : Crosses ⟨s, l⟩ 1 (p.run ⟨s, l⟩ (meaning ⟨s, l⟩)) 0 .blank s.size d) :
    ∃ found span, parse .value s l = .ok found ∧ found.node = d.finish span := by
  obtain ⟨j, hj, hgoes⟩ := h 0 rfl
  have hspent : s.isSpent j = true := by
    rw [Source.isSpent, show s.skipBlanks j = s.skipBlanks s.size from hj]
    exact decide_eq_true (s.le_skipBlanks _)
  obtain ⟨found, hfound, hnode⟩ :=
    Parse.ok_of_goes hroom (goes_value hsteps hx halt hgoes) hspent
  exact ⟨found, _, hfound, hnode⟩

end WeLang
