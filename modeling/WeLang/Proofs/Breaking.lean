import WeLang.Proofs.Placing

/-!
# How a pattern breaks off

A pattern that is there leaves a trace, and one that misses can be undone. What is left is
a pattern that is broken off. An error says what is wrong, but not how a parse came to it,
and for errors of content that is what matters: that a key is there twice is known from
the draft, which is what the entries before it left there.

`Pattern.Breaks` says how a pattern is broken off by an error, in the way in which
`Pattern.Traces` says what it leaves: some of its parts left their traces, and the next one
was broken off, or what it read was refused. Nothing is said of what was tried in vain, for
the same reason as there, and nothing of limits and strings without an end, which can break
off anything anywhere (`Pattern.run_broken`).

In the end all that breaks off a pattern was refused somewhere. What is never refused is
broken off where it refers to something else (`Pattern.Breaks.inner`).
-/

namespace WeLang

variable {cx : Context} {src : Source} {o o' m : Nat} {d d' : Draft} {e : ParseError}

/-! ## Breaches -/

/-- What may break off something that is asked for at an offset, with a draft. -/
abbrev Breach := Nat → Draft → ParseError → Prop

/-- What may break off something that is asked for behind something else. -/
def Breach.behind (Q : Trace) (B : Breach) : Breach := fun o d e =>
  ∃ m d', Q o d m d' ∧ B m d' e

/-- Whether a cause is about what a numeral or a key says. -/
def ParseError.Cause.isContent : ParseError.Cause → Bool
  | .duplicateKey _ | .integerOverflow _ | .invalidDigit .. => true
  | .unexpectedToken .. | .unterminatedLiteral | .unknownSymbol _ | .nestingTooDeep _ |
    .stepLimitExceeded _ => false

instance : ContentRefusals (·.isContent = true) :=
  ⟨fun _ => rfl, fun _ _ => rfl, fun _ => rfl⟩

/-- How a pattern is broken off by an error of content. -/
def Pattern.Breaks {ν : Type} (src : Source) (R : ν → Trace) (B : ν → Breach) :
    Pattern ν → Breach
  | .token kind note, o, d, e => ∃ x d', src.lexeme? o = some x ∧ x.kind = kind ∧
      note x d = .error e d'
  | .endOfInput, _, _, _ | .done, _, _, _ | .never, _, _, _ => False
  | .andThen p q, o, d, e =>
      p.Breaks src R B o d e ∨ Breach.behind (p.Traces src R) (q.Breaks src R B) o d e
  | .orElse p q, o, d, e => p.Breaks src R B o d e ∨ q.Breaks src R B o d e
  | .optional p, o, d, e | .ahead p, o, d, e => p.Breaks src R B o d e
  | .many p, o, d, e =>
      Breach.behind (Trace.Star (p.Traces src R)) (p.Breaks src R B) o d e
  | .separated item separator, o, d, e => item.Breaks src R B o d e ∨
      Breach.behind (item.Traces src R)
        (Breach.behind (Trace.Star (Trace.separated src separator (item.Traces src R)))
          (Breach.behind (fun o d o' d' => src.Token separator o o' ∧ d' = d)
            (item.Breaks src R B))) o d e
  | .child p attach, o, d, e => p.Breaks src R B o .blank e ∨
      ∃ o' n d', p.Traces src R o .blank o' n ∧
        attach (n.finish (src.spanOf o o')) d = .error e d'
  | .andEdit p edit, o, d, e => p.Breaks src R B o d e ∨
      ∃ o' n d', p.Traces src R o d o' n ∧ edit d n = .error e d'
  | .ref name, o, d, e => B name o d e

/-- A matcher that is broken off by an error of content in a certain way only. -/
def Matcher.Broken (B : Breach) (p : Matcher) : Prop :=
  ∀ ⦃start s e t⦄, p start s = .error (.fatal e) t → e.cause.isContent = true →
    B start s.draft e

/-! ## Matchers -/

theorem State.refused_of_settle {s t : State} {edit : Edit} {stop : Nat}
    (h : s.settle edit stop = .error (.fatal e) t) : edit s.draft = .error e t.draft := by
  rw [settle] at h
  split at h
  · cases h
  · next hedit =>
      cases h
      exact hedit

namespace Matcher

variable {p q : Matcher} {P Q : Trace} {A B : Breach}

theorem token_broken (cx : Context) (kind : TokenKind) (note : Lexeme → Edit) :
    Broken (fun o d e => ∃ x d', cx.source.lexeme? o = some x ∧ x.kind = kind ∧
      note x d = .error e d') (token cx kind note) := by
  intro start s e t h hcause
  have hlex := cx.lexed kind start s.progress
  rw [token] at h
  generalize cx.lex kind start s.progress = out at h hlex
  cases hlex with
  | @found x here hk =>
      have hnote := State.refused_of_settle h
      exact ⟨x, _, here, hk, hnote⟩
  | missing => cases h
  | unclosed =>
      cases h
      cases hcause
  | exhausted =>
      cases h
      cases hcause

theorem endOfInput_broken (cx : Context) : Broken B (endOfInput cx) := by
  intro start s e t h _
  rw [endOfInput_eq] at h
  split at h <;> cases h

theorem andThen_broken (hP : Traced P p) (hp : Broken A p) (hq : Broken B q) :
    Broken (fun o d e => A o d e ∨ Breach.behind P B o d e) (andThen p q) := by
  intro start s e t h hcause
  rw [andThen] at h
  split at h
  · next f u hrun =>
      cases f with
      | miss m => cases h
      | fatal e =>
          cases h
          exact .inl (hp hrun hcause)
  · next next u hrun =>
      split at h
      · next f v hrun' =>
          cases f with
          | miss m => cases h
          | fatal e =>
              cases h
              exact .inr ⟨next, u.draft, hP hrun, hq hrun' hcause⟩
      · cases h

theorem orElse_broken (hundone : Undone p) (hp : Broken A p) (hq : Broken B q) :
    Broken (fun o d e => A o d e ∨ B o d e) (orElse p q) := by
  intro start s e t h hcause
  rw [orElse] at h
  split at h
  · cases h
  · next hrun =>
      cases h
      exact .inl (hp hrun hcause)
  · next hrun =>
      split at h
      · cases h
      · next hrun' =>
          cases h
          have := hq hrun' hcause
          rw [State.draft_restore (hundone hrun)] at this
          exact .inr this
      · cases h

theorem optional_broken (hp : Broken A p) : Broken A (optional p) := by
  intro start s e t h hcause
  rw [optional] at h
  split at h
  · cases h
  · next hrun =>
      cases h
      exact hp hrun hcause
  · cases h

theorem ahead_broken (hp : Broken A p) : Broken A (ahead p) := by
  intro start s e t h hcause
  rw [ahead] at h
  split at h
  · cases h
  · next hrun =>
      cases h
      exact hp hrun hcause

/-! ### Repetitions -/

/-- What breaks off a repetition breaks off a round behind some others. -/
theorem rounds_broken {round : Nat → State → Round}
    (again : ∀ ⦃pos s next t⦄, round pos s = .again next t → P pos s.draft next t.draft)
    (fail : ∀ ⦃pos s e t⦄, round pos s = .fail e t → e.cause.isContent = true →
      A pos s.draft e) (size : Nat) :
    Broken (Breach.behind (Trace.Star P) A) (rounds size round) := by
  intro start s
  refine rounds_induction (motive := fun pos s out => ∀ ⦃e t⦄, out = .error (.fatal e) t →
    e.cause.isContent = true → Breach.behind (Trace.Star P) A pos s.draft e) ?_ ?_ ?_ ?_ start s
  · intro pos s stop s' _ e t hout
    cases hout
  · intro pos s e s' hr e' t hout hcause
    cases hout
    exact ⟨pos, s.draft, .refl .., fail hr hcause⟩
  · intro pos s next s' _ _ e t hout
    cases hout
  · intro pos s next s' hr _ _ ih e t hout hcause
    obtain ⟨m, d, hstar, hlast⟩ := ih hout hcause
    exact ⟨m, d, .step (again hr) hstar, hlast⟩

theorem many_broken (cx : Context) (hP : Traced P p) (hp : Broken A p) :
    Broken (Breach.behind (Trace.Star P) A) (many cx p) := by
  refine rounds_broken (manyRound_again hP) ?_ _
  intro pos s e t h hcause
  rw [manyRound] at h
  split at h
  · split at h <;> cases h
  · cases h
  · next hrun =>
      cases h
      exact hp hrun hcause

theorem separatedRound_fail (hp : Broken A p) {separator : TokenKind} ⦃pos s e t⦄
    (h : separatedRound cx p separator pos s = .fail e t) (hcause : e.cause.isContent = true) :
    Breach.behind (fun o d o' d' => cx.source.Token separator o o' ∧ d' = d) A pos s.draft e := by
  rw [separatedRound] at h
  split at h
  · cases h
  · next hsep =>
      cases h
      obtain ⟨_, _, _, _, hnote⟩ := token_broken cx separator _ hsep hcause
      cases hnote
  · next hsep =>
      split at h
      · cases h
      · cases h
      · next hitem =>
          cases h
          exact ⟨_, _, expect_traced cx separator hsep, hp hitem hcause⟩

theorem separated_broken (hP : Traced P p) (hp : Broken A p) (separator : TokenKind) :
    Broken (fun o d e => A o d e ∨ Breach.behind P
      (Breach.behind (Trace.Star (Trace.separated cx.source separator P))
        (Breach.behind (fun o d o' d' => cx.source.Token separator o o' ∧ d' = d) A)) o d e)
      (separated cx p separator) := by
  intro start s e t h hcause
  rw [separated] at h
  split at h
  · next hfirst =>
      exact .inr ⟨_, _, hP hfirst,
        rounds_broken (separatedRound_again hP) (separatedRound_fail hp) _ h hcause⟩
  · cases h
  · next hfirst =>
      cases h
      exact .inl (hp hfirst hcause)

/-! ### Nodes -/

theorem child_broken (hP : Traced P p) (hp : Broken A p) (attach : Node → Edit) :
    Broken (fun o d e => A o .blank e ∨ ∃ o' n d', P o .blank o' n ∧
      attach (n.finish (cx.source.spanOf o o')) d = .error e d') (child cx p attach) := by
  intro start s e t h hcause
  rcases Nat.lt_or_ge s.progress.depth cx.limits.maxDepth with hroom | hfull
  · rw [child_of_room hroom] at h
    split at h
    · next hrun =>
        cases h
        exact .inl (hp hrun hcause)
    · next hrun =>
        have hattach := State.refused_of_settle h
        exact .inr ⟨_, _, _, hP hrun, hattach⟩
  · rw [child_of_full hfull] at h
    cases h
    cases hcause

theorem andEdit_broken (hP : Traced P p) (hp : Broken A p) (edit : Draft → Edit) :
    Broken (fun o d e => A o d e ∨ ∃ o' n d', P o d o' n ∧ edit d n = .error e d')
      (andEdit p edit) := by
  intro start s e t h hcause
  rw [andEdit] at h
  split at h
  · next hrun => exact .inr ⟨_, _, _, hP hrun, State.refused_of_settle h⟩
  · next hrun =>
      cases h
      exact .inl (hp hrun hcause)

end Matcher

/-! ## Patterns -/

open Matcher in
/-- A tidy pattern is broken off as its parts are, whatever was tried in between. -/
theorem Pattern.run_broken {ν : Type} {R : ν → Trace} {B : ν → Breach} {env : ν → Matcher}
    (htraced : ∀ n, Traced (R n) (env n)) (henv : ∀ n, Broken (B n) (env n)) {p : Pattern ν}
    (h : p.Tidy cx.source R) : Broken (p.Breaks cx.source R B) (p.run cx env) := by
  have hrun {p : Pattern ν} (h : p.Tidy cx.source R) := run_traced htraced h
  induction p with
  | token kind note => exact token_broken cx kind note
  | endOfInput => exact endOfInput_broken cx
  | done | never => exact fun _ _ _ _ h => nomatch h
  | andThen p q ihp ihq => exact andThen_broken (hrun h.1).1 (ihp h.1) (ihq h.2)
  | orElse p q ihp ihq => exact orElse_broken ((hrun h.2.1).2 h.1) (ihp h.2.1) (ihq h.2.2)
  | optional p ih => exact optional_broken (ih h.2)
  | many p ih => exact many_broken cx (hrun h.2.2).1 (ih h.2.2)
  | separated item separator ih => exact separated_broken (hrun h.2).1 (ih h.2) separator
  | ahead p ih => exact ahead_broken (ih h)
  | child p attach ih => exact child_broken (hrun (p := p) h).1 (ih h) attach
  | andEdit p edit ih => exact andEdit_broken (hrun (p := p) h).1 (ih h) edit
  | ref name => exact henv name

/-- What is never refused is broken off where it refers to something else, and if it does
so only as its children, this is broken off with a blank draft. -/
theorem Pattern.Breaks.inner {ν : Type} {R : ν → Trace} {B : ν → Breach} {p : Pattern ν}
    (hp : p.Honest fun _ => False) (hshelter : p.Sheltered)
    (hR : ∀ n ⦃o d o' d'⦄, src.Reached o → R n o d o' d' → src.Reached o')
    (h : p.Breaks src R B o d e) (ho : src.Reached o) :
    ∃ n m, src.Reached m ∧ B n m .blank e := by
  induction p generalizing o d with
  | token kind note =>
      obtain ⟨x, d', -, -, hnote⟩ := h
      exact (hp x _ _ _ hnote).elim
  | endOfInput | done | never => exact h.elim
  | andThen p q ihp ihq =>
      rcases h with h | ⟨m, d', htrace, h⟩
      · exact ihp hp.1 hshelter.1 h ho
      · exact ihq hp.2 hshelter.2 h (htrace.reached hR ho).1
  | orElse p q ihp ihq =>
      rcases h with h | h
      · exact ihp hp.1 hshelter.1 h ho
      · rcases hp.2 with hq | rfl
        · exact ihq hq hshelter.2 h ho
        · exact h.elim
  | optional p ih | ahead p ih => exact ih hp hshelter h ho
  | many p ih =>
      obtain ⟨m, d', htrace, h⟩ := h
      exact ih hp hshelter h (Traces.reached hR (p := many p) htrace ho).1
  | separated item separator ih =>
      rcases h with h | ⟨m, d₁, hfirst, m', d₂, hmore, k, d₃, ⟨hsep, rfl⟩, h⟩
      · exact ih hp hshelter h ho
      · have hitems : (separated item separator).Traces src R o d m' d₃ :=
          .inr ⟨m, d₁, m', hfirst, hmore, .inl rfl⟩
        exact ih hp hshelter h (hsep.reached (hitems.reached hR ho).1)
  | child p attach ih =>
      rcases h with h | ⟨o', n, d', -, hattach⟩
      · cases p with
        | ref name => exact ⟨name, o, ho, h⟩
        | _ => exact ih hp.1 hshelter h ho
      · exact (hp.2 _ _ _ _ hattach).elim
  | andEdit p edit ih =>
      rcases h with h | ⟨o', n, d', -, hedit⟩
      · exact ih hp.1 hshelter h ho
      · exact (hp.2 _ _ _ _ hedit).elim
  | ref name => exact hshelter.elim

theorem Pattern.breaks_firstOf {ν : Type} {R : ν → Trace} {B : ν → Breach}
    {ps : List (Pattern ν)} :
    (firstOf ps).Breaks src R B o d e ↔ ∃ p ∈ ps, p.Breaks src R B o d e := by
  induction ps with
  | nil => simp [firstOf, Breaks]
  | cons p ps ih =>
      rw [List.exists_mem_cons_iff, ← ih]
      rfl

theorem Pattern.sheltered_of_mem {ν : Type} {ps : List (Pattern ν)} {p : Pattern ν}
    (h : (firstOf ps).Sheltered) (hp : p ∈ ps) : p.Sheltered := by
  induction ps with
  | nil => cases hp
  | cons q ps ih =>
      rcases List.mem_cons.1 hp with rfl | hp
      · exact h.1
      · exact ih h.2 hp

end WeLang
