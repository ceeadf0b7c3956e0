import WeLang.Scanner
import WeLang.Proofs.Lexing

/-!
# The path through a source

From an offset there is one way on: over the blanks to the next token, to its
end, and so forth, until there is no token to go on to. `Source.Path` is a piece
of that way, with the tokens that were read on it. The scanner walks it in full;
the parser asks for tokens here and there, back and forth, but never at an offset
that is not on it.

There is only one path, so two pieces with the same beginning are pieces of each
other (`Path.total`), and the end of a piece tells how many tokens were read
(`Path.lt_iff`). That is what allows statements about offsets to be read as
statements about numbers of tokens.

`Source.Reads` is a piece of the path behind which nothing but blanks is left.
Such a path from the beginning is what it means that a source can be cut into
tokens (`tokenize_eq_ok`).
-/

namespace WeLang

variable {s : Source} {o o' : Nat}

/-! ## Single steps -/

namespace Source

theorem skipBlanks_of_le {i : Nat} (hle : o ≤ i) (h : i ≤ s.skipBlanks o) :
    s.skipBlanks i = s.skipBlanks o := by
  refine skipWhile_eq h (fun j hj hlt => ?_) (s.not_byteIn_skipWhile _ _)
  exact byteIn_skipWhile (Nat.le_trans hle hj) hlt

theorem skipBlanks_idem (s : Source) (o : Nat) :
    s.skipBlanks (s.skipBlanks o) = s.skipBlanks o :=
  skipBlanks_of_le (s.le_skipBlanks o) (Nat.le_refl _)

theorem boundary_skipBlanks (h : s.Boundary o) : s.Boundary (s.skipBlanks o) := by
  rcases Nat.eq_or_lt_of_le (s.le_skipBlanks o) with heq | hlt
  · exact heq ▸ h
  · have hblank : s.byteIn ByteClass.isBlank (s.skipBlanks o - 1) = true :=
      byteIn_skipWhile (Nat.le_sub_one_of_lt hlt) (Nat.sub_one_lt_of_lt hlt)
    obtain ⟨b, hb, hp⟩ := byteIn_iff.1 hblank
    have := boundary_succ_of_ascii hb (ByteClass.ascii_of_isBlank hp)
    rwa [Nat.sub_add_cancel (Nat.zero_lt_of_lt hlt)] at this

theorem lexeme?_bounds {x : Lexeme} (h : s.lexeme? o = some x) :
    o ≤ x.span.start ∧ x.span.start < x.span.stop ∧ x.span.stop ≤ s.size ∧
      s.Boundary x.span.start ∧ s.Boundary x.span.stop := by
  obtain ⟨hstart, hm, _⟩ := lexeme?_eq_some.1 h
  obtain ⟨hlt, hb, hb'⟩ := TokenKind.matchAt_bounds hm
  have := s.le_skipBlanks o
  rw [hstart]
  exact ⟨this, hlt, hb'.le_size, hb, hb'⟩

theorem kind_ne_unknown {x : Lexeme} (h : s.lexeme? o = some x) : x.kind ≠ .unknown := by
  intro hk
  have hm := (lexeme?_eq_some.1 h).2.1
  rw [hk] at hm
  cases hm

theorem lexeme?_congr (h : s.skipBlanks o = s.skipBlanks o') : s.lexeme? o = s.lexeme? o' := by
  unfold lexeme? peek
  rw [h]

theorem lexeme?_skipBlanks (s : Source) (o : Nat) : s.lexeme? (s.skipBlanks o) = s.lexeme? o :=
  lexeme?_congr (s.skipBlanks_idem o)

theorem not_answers_of_isSpent {k : TokenKind} (h : s.isSpent o = true) :
    ¬ k.Answers s (s.skipBlanks o) := by
  intro hans
  have := (TokenKind.boundary_of_answers hans).2
  simp only [isSpent, decide_eq_true_eq] at h
  omega

theorem lexeme?_of_isSpent (h : s.isSpent o = true) : s.lexeme? o = none := by
  cases hx : s.lexeme? o with
  | none => rfl
  | some x =>
      exact absurd (TokenKind.answers_of_matchAt (lexeme?_eq_some.1 hx).2.1)
        (not_answers_of_isSpent h)

theorem isSpent_of_lexeme? {x : Lexeme} (h : s.lexeme? o = some x) : s.isSpent o = false := by
  cases hs : s.isSpent o with
  | false => rfl
  | true =>
      rw [lexeme?_of_isSpent hs] at h
      cases h

/-! ## Paths -/

/-- The tokens `xs` are read one after the other from `o`, and then one is at
`o'`. -/
inductive Path (s : Source) : Nat → List Lexeme → Nat → Prop
  | nil (o : Nat) : Path s o [] o
  | cons {o o' : Nat} {x : Lexeme} {xs : List Lexeme} (head : s.lexeme? o = some x)
      (tail : Path s x.span.stop xs o') : Path s o (x :: xs) o'

namespace Path

variable {xs ys : List Lexeme} {a b : Nat}

theorem append (h : Path s o xs o') (h' : Path s o' ys b) : Path s o (xs ++ ys) b := by
  induction h with
  | nil _ => exact h'
  | cons head _ ih => exact .cons head (ih h')

theorem of_append (h : Path s o (xs ++ ys) b) : ∃ m, Path s o xs m ∧ Path s m ys b := by
  induction xs generalizing o with
  | nil => exact ⟨o, .nil o, h⟩
  | cons x xs ih =>
      cases h with
      | cons head tail =>
          obtain ⟨m, hx, hy⟩ := ih tail
          exact ⟨m, .cons head hx, hy⟩

theorem le (h : Path s o xs o') : o + xs.length ≤ o' := by
  induction h with
  | nil _ => exact Nat.le_refl _
  | cons head _ ih =>
      have := lexeme?_bounds head
      rw [List.length_cons]
      omega

theorem boundary (h : Path s o xs a) (ho : s.Boundary o) : s.Boundary a := by
  induction h with
  | nil _ => exact ho
  | cons head _ ih => exact ih (lexeme?_bounds head).2.2.2.2

theorem le_size (h : Path s o xs o') (ho : o ≤ s.size) : o' ≤ s.size := by
  induction h with
  | nil _ => exact ho
  | cons head _ ih => exact ih (lexeme?_bounds head).2.2.1

theorem start_lt (h : Path s o xs a) : ∀ x ∈ xs, x.span.start < a := by
  induction h with
  | nil _ => simp
  | cons head tail ih =>
      have := lexeme?_bounds head
      have := tail.le
      rw [List.forall_mem_cons]
      exact ⟨by omega, ih⟩

theorem le_start (h : Path s o xs a) : ∀ x ∈ xs, s.skipBlanks o ≤ x.span.start := by
  induction h with
  | nil _ => simp
  | @cons _ _ x _ head _ ih =>
      obtain ⟨hstart, _⟩ := lexeme?_eq_some.1 head
      have := lexeme?_bounds head
      have := s.le_skipBlanks x.span.stop
      rw [List.forall_mem_cons]
      refine ⟨by omega, fun y hy => ?_⟩
      have := ih y hy
      omega

/-- Of two pieces of the path with the same beginning one is a piece of the
other. -/
theorem total (h : Path s o xs a) (h' : Path s o ys b) :
    (∃ zs, ys = xs ++ zs ∧ Path s a zs b) ∨ (∃ zs, xs = ys ++ zs ∧ Path s b zs a) := by
  induction h generalizing ys with
  | nil o => exact .inl ⟨ys, rfl, h'⟩
  | cons head tail ih =>
      cases h' with
      | nil _ => exact .inr ⟨_, rfl, .cons head tail⟩
      | cons head' tail' =>
          obtain rfl := Option.some.inj (head.symm.trans head')
          rcases ih tail' with ⟨zs, rfl, hz⟩ | ⟨zs, rfl, hz⟩
          · exact .inl ⟨zs, rfl, hz⟩
          · exact .inr ⟨zs, rfl, hz⟩

/-- The end of a piece of the path tells how many tokens were read, also when it
is only known up to blanks. -/
theorem lt_iff (h : Path s o xs a) (h' : Path s o ys b) :
    s.skipBlanks a < s.skipBlanks b ↔ xs.length < ys.length := by
  have hlt {a b : Nat} {zs : List Lexeme} (hz : Path s a zs b) (hne : zs ≠ []) :
      s.skipBlanks a < s.skipBlanks b := by
    cases hz with
    | nil _ => exact absurd rfl hne
    | cons head tail =>
        obtain ⟨hstart, _⟩ := lexeme?_eq_some.1 head
        have := lexeme?_bounds head
        have := tail.le
        have := s.le_skipBlanks b
        omega
  rcases h.total h' with ⟨zs, rfl, hz⟩ | ⟨zs, rfl, hz⟩
  · cases zs with
    | nil =>
        cases hz
        simp
    | cons z zs =>
        have := hlt hz (List.cons_ne_nil _ _)
        simp only [List.length_append, List.length_cons]
        omega
  · cases zs with
    | nil =>
        cases hz
        simp
    | cons z zs =>
        have := hlt hz (List.cons_ne_nil _ _)
        simp only [List.length_append, List.length_cons]
        omega

theorem eq_of_length_eq (h : Path s o xs a) (h' : Path s o ys b)
    (hl : xs.length = ys.length) : xs = ys ∧ a = b := by
  rcases h.total h' with ⟨zs, rfl, hz⟩ | ⟨zs, rfl, hz⟩
  · obtain rfl : zs = [] := List.length_eq_zero_iff.1 (by simpa using hl)
    cases hz
    simp
  · obtain rfl : zs = [] := List.length_eq_zero_iff.1 (by simpa using hl)
    cases hz
    simp

theorem eq_of_skipBlanks_eq (h : Path s o xs a) (h' : Path s o ys b)
    (hab : s.skipBlanks a = s.skipBlanks b) : xs = ys ∧ a = b := by
  have h₁ := h.lt_iff h'
  have h₂ := h'.lt_iff h
  exact h.eq_of_length_eq h' (by omega)

end Path

/-- The tokens `xs` are all that there is from `o` on. -/
def Reads (s : Source) (o : Nat) (xs : List Lexeme) : Prop :=
  ∃ o', Path s o xs o' ∧ s.isSpent o' = true

namespace Reads

variable {x : Lexeme} {xs ys : List Lexeme}

theorem nil_iff : s.Reads o [] ↔ s.isSpent o = true := by
  constructor
  · intro hex
    obtain ⟨o', hp, hs⟩ := hex
    cases hp
    exact hs
  · intro h
    exact ⟨o, .nil o, h⟩

theorem cons_iff : s.Reads o (x :: xs) ↔ s.lexeme? o = some x ∧ s.Reads x.span.stop xs := by
  constructor
  · intro h
    obtain ⟨o', hp, hs⟩ := h
    cases hp with
    | cons head tail => exact ⟨head, o', tail, hs⟩
  · intro h
    obtain ⟨head, o', tail, hs⟩ := h
    exact ⟨o', .cons head tail, hs⟩

/-- There is one list of all tokens. -/
theorem unique (h : s.Reads o xs) (h' : s.Reads o ys) : xs = ys := by
  induction xs generalizing o ys with
  | nil =>
      cases ys with
      | nil => rfl
      | cons y ys =>
          rw [nil_iff] at h
          rw [cons_iff, lexeme?_of_isSpent h] at h'
          exact nomatch h'.1
  | cons x xs ih =>
      rw [cons_iff] at h
      cases ys with
      | nil =>
          rw [nil_iff] at h'
          rw [lexeme?_of_isSpent h'] at h
          exact nomatch h.1
      | cons y ys =>
          rw [cons_iff] at h'
          obtain rfl := Option.some.inj (h.1.symm.trans h'.1)
          rw [ih h.2 h'.2]

theorem not_openString (h : s.Reads o xs) : ¬ s.OpenString o := by
  cases xs with
  | nil => exact fun hopen => not_answers_of_isSpent (nil_iff.1 h) hopen.answers
  | cons x xs => exact not_openString_of_lexeme? (cons_iff.1 h).1

end Reads

end Source

end WeLang
