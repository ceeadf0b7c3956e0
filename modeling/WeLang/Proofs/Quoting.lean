import Mathlib.Algebra.Group.Nat.Even
import WeLang.Lexis.Literal

/-!
# Quotes that close a string

A string is read by skipping whatever a backslash takes, so whether a quote closes it is
known only to somebody who comes from its beginning. It can be seen at the quote as well,
if one looks back at the backslashes before it: they take each other away in pairs, so the
quote is taken if their number is odd. Both come to the same (`closingQuote_eq_none`),
since a backslash that is skipped together with what it takes changes the number behind it
by two or not at all.
-/

namespace WeLang

variable {s : Source} {lo j : Nat}

/-- How many backslashes stand directly before an offset, one after the other, not counting
any before `lo`. -/
def Source.escapes (s : Source) (lo : Nat) : Nat → Nat
  | 0 => 0
  | j + 1 => if lo ≤ j ∧ s.byte? j = some '\\'.toUInt8 then s.escapes lo j + 1 else 0

/-- A quote that closes a text which begins at `lo`, since no backslash takes it away. -/
structure Source.Closing (s : Source) (lo j : Nat) : Prop where
  le : lo ≤ j
  quote : s.byte? j = some '"'.toUInt8
  free : Even (s.escapes lo j)

namespace Source

theorem escapes_self (s : Source) (lo : Nat) : s.escapes lo lo = 0 := by
  cases lo with
  | zero => rfl
  | succ n => exact if_neg fun h => absurd h.1 (Nat.not_succ_le_self n)

/-- A byte that is no backslash ends every row of them, so one may as well begin behind it. -/
theorem escapes_succ (h : s.byte? lo ≠ some '\\'.toUInt8) (hlt : lo < j) :
    s.escapes lo j = s.escapes (lo + 1) j := by
  induction j with
  | zero => cases hlt
  | succ j ih =>
      rcases Nat.eq_or_lt_of_le (Nat.le_of_lt_succ hlt) with rfl | hlt
      · rw [escapes_self, escapes, if_neg fun hrow => h hrow.2]
      · have hle : lo ≤ j ↔ lo + 1 ≤ j := by omega
        simp only [escapes, hle, ih hlt]

/-- A backslash and what it takes are two of a row of backslashes, or end it. -/
theorem even_escapes_add_two (h : s.byte? lo = some '\\'.toUInt8) (hle : lo + 2 ≤ j) :
    Even (s.escapes lo j) ↔ Even (s.escapes (lo + 2) j) := by
  induction j, hle using Nat.le_induction with
  | base =>
      rw [escapes_self, escapes]
      split
      · rw [escapes, if_pos ⟨Nat.le_refl lo, h⟩, escapes_self]
        decide
      · rfl
  | succ j hle ih =>
      have hrow : lo ≤ j ∧ s.byte? j = some '\\'.toUInt8 ↔
          lo + 2 ≤ j ∧ s.byte? j = some '\\'.toUInt8 :=
        and_congr_left' (by omega)
      simp only [escapes, hrow]
      split
      · rw [Nat.even_add_one, Nat.even_add_one, ih]
      · rfl

theorem not_closing_of_end (h : s.byte? lo = none) : ¬ s.Closing lo j := by
  intro hj
  have := lt_size_of_byte? hj.quote
  have := hj.le
  rw [byte?] at h
  split at h
  · cases h
  · omega

theorem closing_self (h : s.byte? lo = some '"'.toUInt8) : s.Closing lo lo :=
  ⟨Nat.le_refl lo, h, by simp [escapes_self]⟩

theorem closing_succ (hquote : s.byte? lo ≠ some '"'.toUInt8)
    (h : s.byte? lo ≠ some '\\'.toUInt8) : s.Closing lo j ↔ s.Closing (lo + 1) j := by
  constructor
  · intro hj
    have hne : lo ≠ j := fun heq => hquote (heq ▸ hj.quote)
    have hlt := Nat.lt_of_le_of_ne hj.le hne
    exact ⟨hlt, hj.quote, escapes_succ h hlt ▸ hj.free⟩
  · intro hj
    exact ⟨Nat.le_of_lt hj.le, hj.quote, (escapes_succ h hj.le).symm ▸ hj.free⟩

theorem closing_add_two (h : s.byte? lo = some '\\'.toUInt8) :
    s.Closing lo j ↔ s.Closing (lo + 2) j := by
  constructor
  · intro hj
    have hne : lo ≠ j := by
      rintro rfl
      cases h.symm.trans hj.quote
    have hne' : lo + 1 ≠ j := by
      rintro rfl
      have hfree := hj.free
      rw [escapes, if_pos ⟨Nat.le_refl lo, h⟩, escapes_self] at hfree
      revert hfree
      decide
    have hle : lo + 2 ≤ j := by
      have := hj.le
      omega
    exact ⟨hle, hj.quote, (even_escapes_add_two h hle).1 hj.free⟩
  · intro hj
    exact ⟨by have := hj.le; omega, hj.quote, (even_escapes_add_two h hj.le).2 hj.free⟩

end Source

namespace Literal

/-- A text is not closed if no quote behind its beginning closes it. -/
theorem closingQuote_eq_none {pos : Nat} :
    closingQuote s pos = none ↔ ∀ j, ¬ s.Closing pos j := by
  fun_induction closingQuote s pos with
  | case1 pos hend => exact iff_of_true rfl fun j => Source.not_closing_of_end hend
  | case2 pos hb =>
      exact iff_of_false (Option.some_ne_none _) fun h => h pos (Source.closing_self hb)
  | case3 pos hb _ ih =>
      simp only [ih, Source.closing_add_two hb]
  | case4 pos b hb hquote hne ih =>
      have hquote : s.byte? pos ≠ some '"'.toUInt8 := by simpa [hb] using hquote
      have hne : s.byte? pos ≠ some '\\'.toUInt8 := by simpa [hb] using hne
      simp only [ih, Source.closing_succ hquote hne]

end Literal

end WeLang
