import WeLang.Proofs.Contract
import WeLang.Proofs.Scanning
import Mathlib.Data.List.Forall2

/-!
# Two sources side by side

Two sources may have the same tokens, one for one, and differ in everything else:
in the blanks between them, and so in every offset. `Twins` are two such sources.

An offset of one corresponds to an offset of the other if as many tokens stand
before either, and then the same token comes next on both sides or none on either
(`Twins.Abreast.next`). Which of two offsets is the greater is the same question
on both sides (`Twins.Abreast.lt_iff`), also up to blanks. That is all a parser
ever asks about offsets, so the progress of two parses can be kept the same:
`Twins.SameProgress`.
-/

namespace WeLang

/-- What a token is apart from where it stands. -/
def Lexeme.word (x : Lexeme) : TokenKind × String :=
  (x.kind, x.text)

/-! ## The path and what is left of it -/

namespace Source

variable {s : Source} {o a b : Nat} {xs us vs : List Lexeme}

/-- What is read from the beginning is what is read up to an offset on the path and
what is read from there. -/
theorem Reads.of_path (h : s.Reads o xs) (hp : s.Path o us a) :
    ∃ zs, xs = us ++ zs ∧ s.Reads a zs := by
  obtain ⟨b, hxs, hb⟩ := h
  rcases hp.total hxs with ⟨zs, rfl, hz⟩ | ⟨zs, rfl, hz⟩
  · exact ⟨zs, rfl, b, hz, hb⟩
  · cases hz with
    | nil _ => exact ⟨[], by simp, a, .nil a, hb⟩
    | cons head _ =>
        rw [lexeme?_of_isSpent hb] at head
        cases head

theorem Path.lt_iff_length (h : s.Path o us a) (h' : s.Path o vs b) :
    a < b ↔ us.length < vs.length := by
  rcases h.total h' with ⟨zs, rfl, hz⟩ | ⟨zs, rfl, hz⟩
  · cases zs with
    | nil =>
        cases hz
        simp
    | cons z zs =>
        have := hz.le
        simp only [List.length_append, List.length_cons] at this ⊢
        omega
  · have := hz.le
    simp only [List.length_append]
    omega

end Source

/-- Whether a token is a name that is spelled like a reserved word, and which, can be
told from its kind and its text. -/
theorem KeywordCollision.ofToken?_of_lexeme? {s : Source} {o : Nat} {x : Lexeme}
    (h : s.lexeme? o = some x) :
    ofToken? x.kind s x.span =
      if x.kind = .identifier then (Keyword.ofSpelling? x.text).map (⟨x.span, ·⟩) else none := by
  obtain ⟨kind, text, start, stop⟩ := x
  obtain ⟨hstart, hm, htext⟩ := Source.lexeme?_eq_some.1 h
  simp only at hstart hm htext ⊢
  subst hstart
  cases kind with
  | identifier =>
      have hrule : nameRule s (s.skipBlanks o) = some stop := Except.ok.inj hm
      obtain ⟨text', hslice⟩ := Literal.exists_slice?_of_name (nameRule_eq_some.1 hrule).1
      have : text = text' := by simp [htext, TokenKind.textOf, hslice]
      rw [if_pos rfl, this, ← gluedKeyword?_of_nameRule hrule hslice]
      rfl
  | _ => rfl

/-- Two sources with the same tokens, and limits for a parse of either. -/
structure Twins where
  left : Source
  right : Source
  limits : Limits
  xs : List Lexeme
  ys : List Lexeme
  reads_left : left.Reads 0 xs
  reads_right : right.Reads 0 ys
  words : xs.map Lexeme.word = ys.map Lexeme.word

namespace Twins

variable {w : Twins} {o o' a a' b b' : Nat}

/-- The left of two parses. -/
def leftCx (w : Twins) : Context :=
  ⟨w.left, w.limits⟩

/-- The right of two parses. -/
def rightCx (w : Twins) : Context :=
  ⟨w.right, w.limits⟩

/-! ## Offsets -/

/-- As many tokens are read up to either offset. -/
def Abreast (w : Twins) (o o' : Nat) : Prop :=
  ∃ us vs, w.left.Path 0 us o ∧ w.right.Path 0 vs o' ∧ us.length = vs.length

namespace Abreast

theorem zero (w : Twins) : w.Abreast 0 0 :=
  ⟨[], [], .nil 0, .nil 0, rfl⟩

theorem lt_iff (h : w.Abreast a a') (h' : w.Abreast b b') : a < b ↔ a' < b' := by
  obtain ⟨us, vs, hu, hv, huv⟩ := h
  obtain ⟨us', vs', hu', hv', huv'⟩ := h'
  rw [hu.lt_iff_length hu', hv.lt_iff_length hv', huv, huv']

theorem skipBlanks_lt_iff (h : w.Abreast a a') (h' : w.Abreast b b') :
    w.left.skipBlanks a < w.left.skipBlanks b ↔ w.right.skipBlanks a' < w.right.skipBlanks b' := by
  obtain ⟨us, vs, hu, hv, huv⟩ := h
  obtain ⟨us', vs', hu', hv', huv'⟩ := h'
  rw [hu.lt_iff hu', hv.lt_iff hv', huv, huv']

theorem le_size (h : w.Abreast o o') : o ≤ w.left.size ∧ o' ≤ w.right.size := by
  obtain ⟨us, vs, hu, hv, _⟩ := h
  exact ⟨hu.le_size (Nat.zero_le _), hv.le_size (Nat.zero_le _)⟩

/-- The same comes next on both sides. -/
theorem next (h : w.Abreast o o') :
    w.left.isSpent o = true ∧ w.right.isSpent o' = true ∨
      ∃ x y, w.left.lexeme? o = some x ∧ w.right.lexeme? o' = some y ∧ x.word = y.word ∧
        w.Abreast x.span.stop y.span.stop := by
  obtain ⟨us, vs, hu, hv, huv⟩ := h
  obtain ⟨xs, hxs, hleft⟩ := w.reads_left.of_path hu
  obtain ⟨ys, hys, hright⟩ := w.reads_right.of_path hv
  have hwords := w.words
  rw [hxs, hys, List.map_append, List.map_append] at hwords
  obtain ⟨_, hrest⟩ := List.append_inj hwords (by simpa using huv)
  cases xs with
  | nil =>
      obtain rfl : ys = [] := by simpa using hrest.symm
      exact .inl ⟨Source.Reads.nil_iff.1 hleft, Source.Reads.nil_iff.1 hright⟩
  | cons x xs =>
      cases ys with
      | nil => cases hrest
      | cons y ys =>
          obtain ⟨hx, _⟩ := Source.Reads.cons_iff.1 hleft
          obtain ⟨hy, _⟩ := Source.Reads.cons_iff.1 hright
          refine .inr ⟨x, y, hx, hy, (List.cons.inj hrest).1, us ++ [x], vs ++ [y],
            hu.append (.cons hx (.nil _)), hv.append (.cons hy (.nil _)), ?_⟩
          simp [huv]

/-- Tokens at corresponding offsets have the same span as others if those on the
other side have. -/
theorem span_eq_iff {x x₁ y y₁ : Lexeme} (h : w.Abreast a a') (h₁ : w.Abreast b b')
    (hx : w.left.lexeme? a = some x) (hy : w.right.lexeme? a' = some y)
    (hx₁ : w.left.lexeme? b = some x₁) (hy₁ : w.right.lexeme? b' = some y₁) :
    x.span = x₁.span ↔ y.span = y₁.span := by
  have hlt := h.skipBlanks_lt_iff h₁
  have hgt := h₁.skipBlanks_lt_iff h
  have hxs := (Source.lexeme?_eq_some.1 hx).1
  have hxs₁ := (Source.lexeme?_eq_some.1 hx₁).1
  have hys := (Source.lexeme?_eq_some.1 hy).1
  have hys₁ := (Source.lexeme?_eq_some.1 hy₁).1
  constructor
  · intro heq
    have : w.right.skipBlanks a' = w.right.skipBlanks b' := by
      rw [heq] at hxs
      omega
    rw [Source.lexeme?_congr this, hy₁] at hy
    rw [Option.some.inj hy]
  · intro heq
    have : w.left.skipBlanks a = w.left.skipBlanks b := by
      rw [heq] at hys
      omega
    rw [Source.lexeme?_congr this, hx₁] at hx
    rw [Option.some.inj hx]

end Abreast

/-! ## Progress -/

/-- Two warnings about the same token. -/
def SameWarning (w : Twins) (k k' : KeywordCollision) : Prop :=
  k.word = k'.word ∧ ∃ o o' x y, w.Abreast o o' ∧ w.left.lexeme? o = some x ∧
    w.right.lexeme? o' = some y ∧ k.span = x.span ∧ k'.span = y.span

/-- Two misses in the same place that want the same. -/
def SameMiss (w : Twins) (m m' : Miss) : Prop :=
  m.expected = m'.expected ∧ ∃ o o', w.Abreast o o' ∧
    m.offset = w.left.skipBlanks o ∧ m'.offset = w.right.skipBlanks o'

/-- Two parses that have come to the same so far. -/
structure SameProgress (w : Twins) (p q : Progress) : Prop where
  attempts : p.attempts = q.attempts
  depth : p.depth = q.depth
  warnings : List.Forall₂ w.SameWarning p.warnings.toList q.warnings.toList
  furthest : Option.Rel w.SameMiss p.furthest q.furthest

theorem SameMiss.merge {m m' n n' : Miss} (h : w.SameMiss m m') (h' : w.SameMiss n n') :
    w.SameMiss (m.merge n) (m'.merge n') := by
  obtain ⟨he, o, o', ho, hm, hm'⟩ := h
  obtain ⟨he', a, a', ha, hn, hn'⟩ := h'
  have hlt := ho.skipBlanks_lt_iff ha
  have hgt := ha.skipBlanks_lt_iff ho
  rw [← hm, ← hm', ← hn, ← hn'] at hlt hgt
  simp only [Miss.merge, hlt, hgt]
  split
  · exact ⟨he', a, a', ha, hn, hn'⟩
  · split
    · exact ⟨he, o, o', ho, hm, hm'⟩
    · exact ⟨by simp only [he, he'], o, o', ho, hm, hm'⟩

namespace SameProgress

variable {p q : Progress}

theorem none (w : Twins) : w.SameProgress .none .none :=
  ⟨rfl, rfl, .nil, .none⟩

theorem spend (h : w.SameProgress p q) : w.SameProgress p.spend q.spend :=
  ⟨congrArg (· + 1) h.attempts, h.depth, h.warnings, h.furthest⟩

theorem deeper (h : w.SameProgress p q) : w.SameProgress p.deeper q.deeper :=
  ⟨h.attempts, congrArg (· + 1) h.depth, h.warnings, h.furthest⟩

theorem leave (h : w.SameProgress p q) : w.SameProgress p.leave q.leave :=
  ⟨h.attempts, congrArg (· - 1) h.depth, h.warnings, h.furthest⟩

theorem noteMiss (h : w.SameProgress p q) (ho : w.Abreast o o') (expected : TokenSet) :
    w.SameProgress (p.noteMiss (w.left.skipBlanks o) expected)
      (q.noteMiss (w.right.skipBlanks o') expected) := by
  refine ⟨h.attempts, h.depth, h.warnings, ?_⟩
  have hmiss : w.SameMiss ⟨w.left.skipBlanks o, w.left.skipBlanks o, expected⟩
      ⟨w.right.skipBlanks o', w.right.skipBlanks o', expected⟩ :=
    ⟨rfl, o, o', ho, rfl, rfl⟩
  have hseen := h.furthest
  unfold Progress.noteMiss
  cases hp : p.furthest <;> cases hq : q.furthest <;> rw [hp, hq] at hseen <;> cases hseen
  · exact .some hmiss
  · next hseen => exact .some (hseen.merge hmiss)

theorem noteCollision (h : w.SameProgress p q) (ho : w.Abreast o o') {x y : Lexeme}
    (hx : w.left.lexeme? o = some x) (hy : w.right.lexeme? o' = some y) (hxy : x.word = y.word) :
    w.SameProgress (p.noteCollision w.leftCx x.kind x.span)
      (q.noteCollision w.rightCx y.kind y.span) := by
  obtain ⟨hkind, htext⟩ := Prod.mk.inj hxy
  have hany : (p.warnings.any fun k => decide (k.span = x.span)) =
      q.warnings.any fun k => decide (k.span = y.span) := by
    rw [← Array.any_toList, ← Array.any_toList]
    have hall := h.warnings
    generalize p.warnings.toList = ks at hall
    generalize q.warnings.toList = ks' at hall
    induction hall with
    | nil => rfl
    | cons hk _ ih =>
        obtain ⟨_, a, a', x₁, y₁, ha, hx₁, hy₁, hs, hs'⟩ := hk
        have := ha.span_eq_iff ho hx₁ hy₁ hx hy
        simp only [List.any_cons, ih, hs, hs', this]
  unfold Progress.noteCollision leftCx rightCx
  rw [KeywordCollision.ofToken?_of_lexeme? hx, KeywordCollision.ofToken?_of_lexeme? hy, hkind,
    htext]
  by_cases hname : y.kind = .identifier
  · rw [if_pos hname, if_pos hname]
    cases Keyword.ofSpelling? y.text with
    | none => exact h
    | some word =>
        simp only [Option.map_some, hany]
        split
        · exact h
        · refine ⟨h.attempts, h.depth, ?_, h.furthest⟩
          rw [Array.toList_push, Array.toList_push]
          exact List.rel_append h.warnings
            (.cons ⟨rfl, o, o', x, y, ho, hx, hy, rfl, rfl⟩ .nil)
  · rw [if_neg hname, if_neg hname]
    exact h

end SameProgress

end Twins

end WeLang
