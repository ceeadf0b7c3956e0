import WeLang.Proofs.Breaking

/-!
# Errors of content

In the grammar little can be refused: a numeral that has no value, and a key that is there
already. `Source.Faulty` says what a source looks like in which that happens, by its tokens
alone. For a numeral it is enough to look at the one token. A key is refused for one that
stands before it, in the same map or module: from where its entries begin, all that is read
up to the value of the key are entries, and one of these has the key.

That this is so whenever a parse is broken off by an error of content is read off how its
goal breaks (`Parse.faulty_of_outcome`). Of the ten sorts of values eight are never refused,
and all that is left to look at are the entries: they have left their keys in the draft, in
the order in which they were read (`Grammar.star_entries`).
-/

namespace WeLang

variable {cx : Context} {src : Source} {o o' m : Nat} {d d' : Draft} {e : ParseError}

/-! ## Errors of content -/

/-- Entries that are read one after the other, each by its key. -/
inductive Source.Entries (src : Source) : Nat → List Lexeme → Nat → Prop
  | nil (o : Nat) : Entries src o [] o
  | cons {o m k o' : Nat} {x : Lexeme} {value xs : List Lexeme} (key : src.Key o x m)
      (path : src.Path m value k) (shape : Language.IsValue (value.map Lexeme.kind))
      (tail : Entries src k xs o') : Entries src o (x :: xs) o'

/-- Where the entries of a map begin, or those of a source that is a module. -/
inductive Source.Opens (src : Source) (goal : Goal) : Nat → Prop
  | map {us : List Lexeme} {brace : Lexeme} {o : Nat} (path : src.Path 0 (us ++ [brace]) o)
      (mark : brace.kind = .symbol .mapStart) : Opens src goal o
  | module {us : List Lexeme} {uses : List Nat} {o : Nat} (whole : goal = .module)
      (path : src.Path 0 us o)
      (shape : us.map Lexeme.kind = uses.flatMap (.keyword .useWord :: Language.chain ·)) :
      Opens src goal o

/-- An error of content at the token that it is about: a numeral that has no value, or a
key that a map or a module has already. -/
inductive Source.Faulty (src : Source) (goal : Goal) : ParseError → Prop
  | numeral {o : Nat} {x : Lexeme} {cause : ParseError.Cause} (here : src.lexeme? o = some x)
      (kind : x.kind = .integer) (fault : Numeral.value x.text = .error cause) :
      Faulty src goal { cause, span := x.span }
  | key {o o' : Nat} {xs : List Lexeme} {x y : Lexeme} (opens : src.Opens goal o)
      (row : src.Entries o (xs ++ [x]) o') (earlier : y ∈ xs) (same : y.text = x.text) :
      Faulty src goal { cause := .duplicateKey x.text, span := x.span }

theorem Source.Entries.append {xs ys : List Lexeme} (h : src.Entries o xs m)
    (h' : src.Entries m ys o') : src.Entries o (xs ++ ys) o' := by
  induction h with
  | nil o => exact h'
  | cons key path shape _ ih => exact .cons key path shape (ih h')

theorem Source.Key.reached {x : Lexeme} (h : src.Key o x m) (ho : src.Reached o) :
    src.Reached m :=
  h.colon.reached (h.token.reached ho)

theorem Source.Entries.reached {xs : List Lexeme} (h : src.Entries o xs o')
    (ho : src.Reached o) : src.Reached o' := by
  induction h with
  | nil o => exact ho
  | cons key path shape _ ih => exact ih ((key.reached ho).path path)

namespace Grammar

open Pattern

variable {ν : Type} {R : ν → Trace} {B : ν → Breach} {inner : Pattern ν} {goal : Goal}

/-- What is known of the values in what is broken off: what is left of them was read on the
path, and what breaks them off are errors of content. -/
structure Inside (src : Source) (goal : Goal) (Q : Trace) (B : Breach) : Prop where
  path : ∀ ⦃o d o' d'⦄, Q o d o' d' →
    ∃ xs, src.Path o xs o' ∧ Language.IsValue (xs.map Lexeme.kind)
  faulty : ∀ ⦃o e⦄, src.Reached o → B o .blank e → src.Faulty goal e

theorem Inside.reached {Q : Trace} {B : Breach} (h : Inside src goal Q B) ⦃o d o' d'⦄
    (ho : src.Reached o) (hQ : Q o d o' d') : src.Reached o' := by
  obtain ⟨xs, hxs, -⟩ := h.path hQ
  exact ho.path hxs

/-- Entries leave their keys in the draft. -/
theorem star_entries
    (hpath : ∀ ⦃o d o' d'⦄, inner.Traces src R o d o' d' →
      ∃ xs, src.Path o xs o' ∧ Language.IsValue (xs.map Lexeme.kind))
    (h : Trace.Star ((entry inner).Traces src R) o d o' d') :
    ∃ xs, src.Entries o xs o' ∧ d'.entryKeys = d.entryKeys ++ xs.map Lexeme.text := by
  induction h with
  | refl o d => exact ⟨[], .nil o, by simp⟩
  | step head _ ih =>
      obtain ⟨x, m, n, hkey, hn, -, rfl⟩ := traces_entry head
      obtain ⟨value, hvalue, hshape⟩ := hpath hn
      obtain ⟨xs, hxs, hkeys⟩ := ih
      refine ⟨x :: xs, .cons hkey hvalue hshape hxs, ?_⟩
      rw [hkeys]
      simp [Draft.entryKeys]

/-- An entry is broken off in its value, or refused since its key is there already. -/
theorem breaks_entry (h : (entry inner).Breaks src R B o d e) :
    ∃ x m, src.Key o x m ∧ (inner.Breaks src R B m .blank e ∨
      ∃ o' n, inner.Traces src R m .blank o' n ∧ x.text ∈ d.entryKeys ∧
        e = { cause := .duplicateKey x.text, span := x.span }) := by
  rcases h with ⟨_, _, _, _, hkey⟩ | ⟨k, d₁, ⟨x, hx, hk, rfl, hkey⟩, h⟩
  · cases hkey
  · cases hkey
    rcases h with ⟨_, _, _, _, hmark⟩ | ⟨m, d₂, ⟨y, hy, hcolon, hstop, hmark⟩, h⟩
    · cases hmark
    · cases hmark
      refine ⟨x, m, ⟨hx, hk, y, hy, hcolon, hstop⟩, ?_⟩
      rcases h with (h | ⟨o', n, d', hn, hattach⟩) | ⟨_, _, _, h⟩
      · exact .inl h
      · refine .inr ⟨o', n, hn, ?_⟩
        rw [Draft.attachEntry_eq _ (Array.back?_push ..)] at hattach
        split at hattach
        · next hold =>
            cases hattach
            exact ⟨hold, rfl⟩
        · cases hattach
      · exact h.elim

/-- Behind where entries begin, what breaks them off is an error of content. -/
theorem faulty_of_entries (hinner : Inside src goal (inner.Traces src R) (inner.Breaks src R B))
    (hopens : src.Opens goal o) (ho : src.Reached o) (hd : d.entryKeys = [])
    (h : (many (entry inner)).Breaks src R B o d e) : src.Faulty goal e := by
  obtain ⟨m, d', hstar, h⟩ := h
  obtain ⟨xs, hxs, hkeys⟩ := star_entries hinner.path hstar
  obtain ⟨x, k, hkey, h⟩ := breaks_entry h
  rcases h with h | ⟨o', n, hn, hold, rfl⟩
  · exact hinner.faulty (hkey.reached (hxs.reached ho)) h
  · obtain ⟨value, hvalue, hshape⟩ := hinner.path hn
    rw [hkeys, hd, List.nil_append] at hold
    obtain ⟨y, hy, hsame⟩ := List.mem_map.1 hold
    exact .key hopens (hxs.append (.cons hkey hvalue hshape (.nil o'))) hy hsame

theorem faulty_of_map (hinner : Inside src goal (inner.Traces src R) (inner.Breaks src R B))
    (ho : src.Reached o) (h : (map inner).Breaks src R B o .blank e) : src.Faulty goal e := by
  rcases h with (⟨_, _, _, _, hmark⟩ | ⟨m, d, ⟨x, hx, hbrace, rfl, hmark⟩, h⟩) | ⟨_, _, _, _, hedit⟩
  · cases hmark
  · cases hmark
    obtain ⟨us, k, hus, hk⟩ := ho
    rw [← Source.lexeme?_congr hk] at hx
    have hpath := hus.append (.cons hx (.nil _))
    rcases h with h | ⟨_, _, -, (⟨_, _, _, _, hmark⟩ | ⟨_, _, -, h⟩)⟩
    · exact faulty_of_entries hinner (.map hpath hbrace) ⟨_, _, hpath, rfl⟩ rfl h
    · cases hmark
    · exact h.elim
  · cases hedit

theorem faulty_of_integer (h : (integer : Pattern ν).Breaks src R B o d e) :
    src.Faulty goal e := by
  obtain ⟨x, d', hx, hk, hnote⟩ := h
  have hnote : Draft.attachNumeral x.text x.span d = .error e d' := hnote
  rw [Draft.attachNumeral] at hnote
  cases hvalue : Numeral.value x.text with
  | ok value =>
      rw [hvalue] at hnote
      cases hnote
  | error cause =>
      rw [hvalue] at hnote
      cases hnote
      exact .numeral hx hk hvalue

/-- Of the values only two sorts are ever refused, and the others are broken off inside. -/
theorem faulty_of_value {R : Nonterminal → Trace} {B : Nonterminal → Breach}
    (hinner : Inside src goal (R .value) (B .value)) (ho : src.Reached o)
    (h : (value (.ref .value)).Breaks src R B o .blank e) : src.Faulty goal e := by
  have hreached (_ : Nonterminal) := hinner.reached
  obtain ⟨p, hp, h⟩ := breaks_firstOf.1 h
  have plain (hhonest : p.Honest fun _ => False) : src.Faulty goal e := by
    obtain ⟨n, m, hm, h⟩ := h.inner hhonest (sheltered_of_mem value_sheltered hp) hreached ho
    exact hinner.faulty hm h
  simp only [List.mem_cons, List.not_mem_nil, or_false] at hp
  rcases hp with rfl | rfl | rfl | rfl | rfl | rfl | rfl | rfl | rfl | rfl
  · exact plain (list_honest ref_honest)
  · have hinner : Inside src goal ((Pattern.ref .value).Traces src R)
        ((Pattern.ref .value).Breaks src R B) := hinner
    exact faulty_of_map hinner ho h
  · exact plain (function_honest ref_honest)
  · exact plain (typeParameter_honest ref_honest)
  · exact plain (typeAlias_honest ref_honest)
  · exact plain (typeIdentity_honest ref_honest)
  · exact plain discard_honest
  · exact faulty_of_integer h
  · exact plain identifierChain_honest
  · exact plain string_honest

/-- How a value is broken off that has at most so many levels of values in it. -/
def Breaks (src : Source) : Nat → Breach
  | 0, _, _, _ => False
  | levels + 1, o, d, e =>
      (value (.ref Nonterminal.value)).Breaks src (fun _ => Leaves src levels)
        (fun _ => Breaks src levels) o d e

theorem valueWithin_broken (cx : Context) (levels : Nat) :
    Matcher.Broken (Breaks cx.source levels) (valueWithin cx levels) := by
  induction levels with
  | zero =>
      intro start s e t h hcause
      cases h
      cases hcause
  | succ levels ih =>
      exact run_broken (R := fun _ => Leaves cx.source levels)
        (fun _ => valueWithin_traced cx levels) (fun _ => ih) (value_tidy ref_tidy)

theorem inside_of_levels (src : Source) (goal : Goal) (levels : Nat) :
    Inside src goal (Leaves src levels) (Breaks src levels) := by
  induction levels with
  | zero => exact ⟨fun _ _ _ _ => leaves_path, fun _ _ _ h => h.elim⟩
  | succ levels ih => exact ⟨fun _ _ _ _ => leaves_path, fun _ _ ho h => faulty_of_value ih ho h⟩

theorem useStatement_local {L : Nonterminal → List TokenKind → Prop} :
    (useStatement : Pattern Nonterminal).Local L := by
  refine ⟨trivial, ⟨identifierChain_local, fun w hw => ?_⟩, trivial⟩
  obtain ⟨n, rfl⟩ := spells_identifierChain hw
  exact List.cons_ne_nil _ _

/-- Statements of use are on the path, and they leave no keys. -/
theorem many_uses {R : Nonterminal → Trace}
    (hR : ∀ n ⦃o d o' d'⦄, R n o d o' d' →
      ∃ xs, src.Path o xs o' ∧ Language.IsValue (xs.map Lexeme.kind))
    (h : (many (useStatement : Pattern Nonterminal)).Traces src R o d o' d') :
    (∃ (us : List Lexeme) (uses : List Nat), src.Path o us o' ∧
      us.map Lexeme.kind = uses.flatMap (.keyword .useWord :: Language.chain ·)) ∧
      d'.entryKeys = d.entryKeys := by
  constructor
  · obtain ⟨us, hus, hspells⟩ :=
      Traces.path (L := fun _ => Language.IsValue) hR (p := many useStatement) useStatement_local h
    obtain ⟨uses, -, hshape⟩ := spells_many_map (P := fun _ : Nat => True)
      (fun _ h => (spells_useStatement h).imp fun _ hw => ⟨trivial, hw⟩) hspells
    exact ⟨us, uses, hus, hshape⟩
  · induction h with
    | refl o d => rfl
    | step head _ ih =>
        obtain ⟨_, _, hword, _, _, ⟨n, -, hattach⟩, rfl, rfl⟩ := head
        obtain ⟨-, rfl⟩ := traces_expect hword
        exact ih.trans (Draft.entryKeys_of_attachUsing hattach)

theorem faulty_of_module {R : Nonterminal → Trace} {B : Nonterminal → Breach}
    (hinner : Inside src .module (R .value) (B .value))
    (h : («module» (.ref .value)).Breaks src R B 0 .blank e) : src.Faulty .module e := by
  have hreached (_ : Nonterminal) := hinner.reached
  rcases h with (h | ⟨m, d, huses, h | ⟨_, _, _, (h | ⟨_, _, _, h⟩)⟩⟩) | ⟨_, _, _, _, hedit⟩
  · obtain ⟨n, m, hm, h⟩ := Breaks.inner (p := many useStatement) useStatement_honest
      module_sheltered.1 hreached h src.reached_zero
    exact hinner.faulty hm h
  · obtain ⟨⟨us, uses, hus, hshape⟩, hkeys⟩ := many_uses (fun _ => hinner.path) huses
    have hinner : Inside src .module ((Pattern.ref .value).Traces src R)
        ((Pattern.ref .value).Breaks src R B) := hinner
    exact faulty_of_entries hinner (.module rfl hus hshape) (src.reached_zero.path hus) hkeys h
  · exact h.elim
  · exact h.elim
  · cases hedit

end Grammar

/-- How a whole source is broken off, with so many levels of values in it. -/
def Goal.Breaks (src : Source) (levels : Nat) : Goal → Breach
  | .module => (Grammar.module (.ref .value)).Breaks src
      (fun (_ : Nonterminal) => Grammar.Leaves src levels) fun _ => Grammar.Breaks src levels
  | .value => (Grammar.soleValue (.ref .value)).Breaks src
      (fun (_ : Nonterminal) => Grammar.Leaves src levels) fun _ => Grammar.Breaks src levels

theorem Goal.matcher_broken (goal : Goal) (cx : Context) :
    Matcher.Broken (goal.Breaks cx.source (cx.limits.maxDepth + 1)) (goal.matcher cx) := by
  have htraced (n : Nonterminal) := Grammar.valueWithin_traced cx (cx.limits.maxDepth + 1)
  have henv (n : Nonterminal) := Grammar.valueWithin_broken cx (cx.limits.maxDepth + 1)
  cases goal with
  | module => exact Pattern.run_broken htraced henv (Grammar.module_tidy Grammar.ref_tidy)
  | value => exact Pattern.run_broken htraced henv (Grammar.soleValue_tidy Grammar.ref_tidy)

theorem Goal.faulty_of_breaks {goal : Goal} {levels : Nat}
    (h : goal.Breaks src levels 0 .blank e) : src.Faulty goal e := by
  have hinner := Grammar.inside_of_levels src goal levels
  cases goal with
  | module => exact Grammar.faulty_of_module hinner h
  | value =>
      rcases h with h | ⟨_, _, _, (h | ⟨_, _, _, h⟩)⟩
      · exact Grammar.faulty_of_value hinner src.reached_zero h
      · exact h.elim
      · exact h.elim

/-- An error of content that ends a parse is at the token that it is about. -/
theorem Parse.faulty_of_outcome {goal : Goal} {p : Progress}
    (h : outcome goal cx = .error (.fatal e) p) (hcause : e.cause.isContent = true) :
    cx.source.Faulty goal e := by
  rcases run_of_outcome_error h with ⟨t, hrun, -⟩ | heq
  · exact Goal.faulty_of_breaks (goal.matcher_broken cx hrun hcause)
  · cases heq
    cases hcause

end WeLang
