import Mathlib.Data.Nat.Digits.Defs
import WeLang.Parse.Grammar
import WeLang.Proofs.Lexing
import WeLang.Proofs.Escaping
import WeLang.Proofs.Wording

/-!
# What numerals stand for

A numeral is read twice. The rule that finds it looks at bytes: perhaps at two that mark a
base, and then at decimal digits as far as they go, whatever the base. Its value is taken
from its text: the mark is looked for once more, and the digits behind it are read from the
left until one of them does not belong to the base or makes the number too great.

`Numeral.Begins` is how the text at an offset begins with a numeral, and `number` is what
digits denote in a base. Both readings agree with it and with each other
(`numerals_read_exactly`). A digit too many does not hide behind a number that is too great,
nor the other way round: of the digits up to the first that does not belong to the base, the
number decides, since with every further digit it only gets greater.
-/

namespace WeLang

variable {s : Source} {start stop pos radix acc : Nat} {c a m : Char}
  {w text mark ds : List Char}

namespace Numeral

/-- The letters that mark a base behind a zero. -/
def marks : List (Char × Nat) :=
  [('x', 16), ('o', 8), ('b', 2)]

/-- How a text begins with a numeral: with a mark of a base, if a digit comes behind it, and
then with as many digits as there are. -/
inductive Begins : List Char → List Char → Nat → List Char → Prop
  | marked {m d : Char} {rest : List Char} {radix : Nat} (base : (m, radix) ∈ marks)
      (digit : d.isDigit = true) :
      Begins ('0' :: m :: d :: rest) ['0', m] radix ((d :: rest).takeWhile Char.isDigit)
  | plain {text : List Char} (unmarked : ∀ m d rest radix, text = '0' :: m :: d :: rest →
      (m, radix) ∈ marks → d.isDigit = false) :
      Begins text [] 10 (text.takeWhile Char.isDigit)

/-- What a digit counts. -/
def digitValue (c : Char) : Nat :=
  c.toNat - '0'.toNat

/-- The digits up to the first that does not belong to a base. -/
def proper (radix : Nat) (digits : List Char) : List Char :=
  digits.takeWhile fun c => digitValue c < radix

/-- The number that digits denote in a base. -/
def number (radix : Nat) (digits : List Char) : Nat :=
  Nat.ofDigits radix (digits.reverse.map digitValue)

/-! ## Values -/

theorem digit?_of_isDigit (h : c.isDigit = true) : digit? c = some (digitValue c) := by
  rw [digit?]
  refine if_pos ?_
  simpa [Char.isDigit, Char.le_def] using h

theorem positional_eq_number (h : ∀ c ∈ ds, c.isDigit = true) :
    positional radix 0 ds = number radix ds := by
  rw [number, Nat.ofDigits_eq_foldr, List.foldr_map, List.foldr_reverse, positional]
  refine List.foldl_ext _ _ _ fun n c hc => ?_
  rw [digit?_of_isDigit (h c hc), Option.getD_some, Nat.cast_id, Nat.mul_comm, Nat.add_comm]

/-- Of the digits up to the first that does not belong to the base, the number that they
denote decides whether a numeral is too great. -/
theorem valueFrom_eq (hr : 0 < radix) (hacc : acc < UInt64.size)
    (h : ∀ c ∈ ds, c.isDigit = true) :
    valueFrom radix acc ds =
      if UInt64.size ≤ positional radix acc (proper radix ds) then .error .overflow
      else if proper radix ds = ds then .ok (positional radix acc ds)
      else .error .invalidDigit := by
  induction ds generalizing acc with
  | nil => simp [valueFrom, proper, positional, hacc]
  | cons c cs ih =>
      rw [List.forall_mem_cons] at h
      obtain ⟨hc, hcs⟩ := h
      have hdigit := digit?_of_isDigit hc
      rw [valueFrom, hdigit]
      by_cases hlt : digitValue c < radix
      · have hproper : proper radix (c :: cs) = c :: proper radix cs := by
          simp [proper, hlt]
        have hstep (r : List Char) : positional radix acc (c :: r) =
            positional radix (acc * radix + digitValue c) r := by
          simp [positional, hdigit]
        simp only [Option.filter_some, hlt, decide_true, if_true, hproper, hstep,
          List.cons.injEq, true_and]
        split
        · next hsmall => exact ih hsmall hcs
        · next hbig =>
            have hle := le_positional hr (acc * radix + digitValue c) (proper radix cs)
            rw [if_pos (by omega)]
      · have hproper : proper radix (c :: cs) = [] := by
          simp [proper, hlt]
        have hnot : ¬ UInt64.size ≤ acc := Nat.not_le.2 hacc
        simp [Option.filter, hlt, hproper, positional, hnot]

theorem isDigit_of_begins (h : Begins text mark radix ds) : ∀ c ∈ ds, c.isDigit = true := by
  cases h with
  | marked _ _ => exact fun c hc => List.mem_takeWhile_imp hc
  | plain _ => exact fun c hc => List.mem_takeWhile_imp hc

theorem radix_pos_of_begins (h : Begins text mark radix ds) : 0 < radix := by
  cases h with
  | marked base _ =>
      simp only [marks, List.mem_cons, Prod.mk.injEq, List.not_mem_nil, or_false] at base
      omega
  | plain _ => decide

theorem ascii_of_mem_marks (base : (m, radix) ∈ marks) : m.val.toNat < 128 := by
  simp only [marks, List.mem_cons, Prod.mk.injEq, List.not_mem_nil, or_false] at base
  rcases base with ⟨rfl, -⟩ | ⟨rfl, -⟩ | ⟨rfl, -⟩ <;> decide

theorem radix_unique {radix' : Nat} (base : (m, radix) ∈ marks) (base' : (m, radix') ∈ marks) :
    radix = radix' := by
  simp only [marks, List.mem_cons, Prod.mk.injEq, List.not_mem_nil, or_false] at base base'
  rcases base with ⟨rfl, rfl⟩ | ⟨rfl, rfl⟩ | ⟨rfl, rfl⟩ <;> simp_all

/-- A text begins with one numeral only. -/
theorem Begins.unique {mark' ds' : List Char} {radix' : Nat} (h : Begins text mark radix ds)
    (h' : Begins text mark' radix' ds') : mark = mark' ∧ radix = radix' ∧ ds = ds' := by
  cases h with
  | marked base digit =>
      cases h' with
      | marked base' _ => exact ⟨rfl, radix_unique base base', rfl⟩
      | plain unmarked => cases digit.symm.trans (unmarked _ _ _ _ rfl base)
  | plain unmarked =>
      cases h' with
      | marked base digit => cases digit.symm.trans (unmarked _ _ _ _ rfl base)
      | plain _ => exact ⟨rfl, rfl, rfl⟩

/-- The text of a numeral is taken apart as it was found. -/
theorem radixAndDigits_of_begins (h : Begins text mark radix ds) :
    radixAndDigits (mark ++ ds) = (radix, ds) := by
  cases h with
  | marked base _ =>
      simp only [marks, List.mem_cons, Prod.mk.injEq, List.not_mem_nil, or_false] at base
      rcases base with ⟨rfl, rfl⟩ | ⟨rfl, rfl⟩ | ⟨rfl, rfl⟩ <;> rfl
  | plain unmarked =>
      -- what begins like a marked numeral has a letter among its digits
      have hdigits := isDigit_of_begins (Begins.plain unmarked)
      rw [List.nil_append]
      unfold radixAndDigits
      split
      · next heq => exact absurd (hdigits 'x' (by simp [heq])) (by decide)
      · next heq => exact absurd (hdigits 'o' (by simp [heq])) (by decide)
      · next heq => exact absurd (hdigits 'b' (by simp [heq])) (by decide)
      · rfl

end Numeral

/-! ## Digits in a source -/

/-- An ASCII character is its own byte. -/
theorem utf8EncodeChar_of_ascii (h : c.val.toNat < 128) : String.utf8EncodeChar c = [c.toUInt8] := by
  rw [String.utf8EncodeChar]
  rw [if_pos (by omega)]
  rfl

theorem length_flatMap_of_ascii (h : ∀ c ∈ w, c.val.toNat < 128) :
    (w.flatMap String.utf8EncodeChar).length = w.length := by
  induction w with
  | nil => rfl
  | cons c w ih =>
      rw [List.forall_mem_cons] at h
      rw [List.flatMap_cons, utf8EncodeChar_of_ascii h.1, List.singleton_append, List.length_cons,
        ih h.2, List.length_cons]

theorem Char.ascii_of_isDigit (h : c.isDigit = true) : c.val.toNat < 128 := by
  simp only [Char.isDigit, Bool.and_eq_true, decide_eq_true_eq, UInt32.le_iff_toNat_le] at h
  have : c.val.toNat ≤ 57 := h.2
  omega

namespace Numeral

theorem ascii_of_begins (h : Begins text mark radix ds) : ∀ c ∈ mark ++ ds, c.val.toNat < 128 := by
  intro c hmem
  rcases List.mem_append.1 hmem with hc | hc
  · clear hmem
    cases h with
    | marked base _ =>
        rcases List.mem_pair.1 hc with rfl | rfl
        · decide
        · exact ascii_of_mem_marks base
    | plain _ => cases hc
  · exact Char.ascii_of_isDigit (isDigit_of_begins h c hc)

theorem exists_rest_of_begins (h : Begins text mark radix ds) :
    ∃ rest, text = mark ++ ds ++ rest := by
  cases h with
  | @marked m d rest radix _ _ =>
      exact ⟨(d :: rest).dropWhile Char.isDigit, by
        rw [List.append_assoc, List.takeWhile_append_dropWhile]
        rfl⟩
  | plain _ => exact ⟨_, (List.takeWhile_append_dropWhile).symm⟩

end Numeral

/-- The bytes that are digits are those of the characters that are. -/
theorem ByteClass.exists_isDigit : ∀ {b : UInt8}, isNumeric b = true →
    ∃ a : Char, a.isDigit = true ∧ a.toUInt8 = b := by
  have hdigit : ∀ b : UInt8, isNumeric b = true →
      (Char.ofNat b.toNat).isDigit = true ∧ (Char.ofNat b.toNat).toUInt8 = b := by
    decide +kernel
  exact fun {b} h => ⟨_, hdigit b h⟩

theorem ByteClass.isNumeric_of_isDigit (h : c.isDigit = true) : isNumeric c.toUInt8 = true := by
  have hascii := Char.ascii_of_isDigit h
  have hval : c.toUInt8.toNat = c.val.toNat := Nat.mod_eq_of_lt (by omega)
  simp only [Char.isDigit, Bool.and_eq_true, decide_eq_true_eq, UInt32.le_iff_toNat_le] at h
  simp only [isNumeric, Bool.and_eq_true, decide_eq_true_eq, UInt8.le_iff_toNat_le, hval]
  exact h

namespace Source

/-- What stands behind an offset, character by character. -/
theorem drop_of_slice? {t : String} (h : s.slice? start s.size = some t) :
    (bytesOf s.text).drop start = t.toList.flatMap String.utf8EncodeChar := by
  obtain ⟨-, -, -, hbytes⟩ := slice?_eq_some.1 h
  have hlength : ((bytesOf s.text).drop start).length ≤ s.size - start := by
    rw [List.length_drop]
    exact Nat.le_refl _
  rw [List.take_of_length_le hlength] at hbytes
  rw [← hbytes, ← bytesOf_ofList, String.ofList_toList]

theorem byte?_of_end (h : (bytesOf s.text).drop pos = []) : s.byte? pos = none :=
  byte?_eq_none (List.drop_eq_nil_iff.1 h)

variable (h : (bytesOf s.text).drop pos = (c :: w).flatMap String.utf8EncodeChar)
include h

/-- An ASCII byte stands where its character does. -/
theorem byte?_iff_char (ha : a.val.toNat < 128) : s.byte? pos = some a.toUInt8 ↔ c = a := by
  obtain ⟨b, bs, hb⟩ := List.exists_cons_of_ne_nil (String.utf8EncodeChar_ne_nil (c := c))
  rw [List.flatMap_cons, hb, List.cons_append] at h
  rw [(byte?_of_drop h).1, Option.some.injEq]
  constructor
  · intro heq
    exact eq_of_ascii_mem ha (by simp [hb, heq])
  · intro heq
    subst heq
    rw [utf8EncodeChar_of_ascii ha] at hb
    exact (List.cons.inj hb).1.symm

theorem drop_succ_of_ascii (hc : c.val.toNat < 128) :
    (bytesOf s.text).drop (pos + 1) = w.flatMap String.utf8EncodeChar := by
  rw [List.flatMap_cons, utf8EncodeChar_of_ascii hc, List.singleton_append] at h
  exact (byte?_of_drop h).2

theorem byteIn_isNumeric : s.byteIn ByteClass.isNumeric pos = c.isDigit := by
  rw [Bool.eq_iff_iff, byteIn_iff]
  constructor
  · intro hex
    obtain ⟨b, hb, hn⟩ := hex
    obtain ⟨a, ha, rfl⟩ := ByteClass.exists_isDigit hn
    rw [(byte?_iff_char h (Char.ascii_of_isDigit ha)).1 hb]
    exact ha
  · intro hc
    have hb := (byte?_iff_char h (Char.ascii_of_isDigit hc)).2 rfl
    exact ⟨_, hb, ByteClass.isNumeric_of_isDigit hc⟩

omit h in
/-- Digits go on in the bytes for as long as they do in the text. -/
theorem skipWhile_isNumeric (h : (bytesOf s.text).drop pos = w.flatMap String.utf8EncodeChar) :
    s.skipWhile ByteClass.isNumeric pos = pos + (w.takeWhile Char.isDigit).length := by
  induction w generalizing pos with
  | nil =>
      have hend : s.byteIn ByteClass.isNumeric pos = false := by
        rw [byteIn, byte?_of_end h]
        rfl
      rw [skipWhile_of_not_byteIn hend]
      rfl
  | cons c w ih =>
      have hc := byteIn_isNumeric h
      cases hdigit : c.isDigit with
      | false =>
          rw [skipWhile_of_not_byteIn (hc.trans hdigit), List.takeWhile_cons_of_neg (by simp [hdigit])]
          rfl
      | true =>
          have hrest := drop_succ_of_ascii h (Char.ascii_of_isDigit hdigit)
          rw [skipWhile_of_byteIn (hc.trans hdigit), ih hrest, List.takeWhile_cons_of_pos hdigit,
            List.length_cons]
          omega

end Source

/-! ## The rule -/

namespace Literal

variable (h : (bytesOf s.text).drop start = text.flatMap String.utf8EncodeChar)
include h

theorem digits_eq_takeWhile :
    digits s start = if text.takeWhile Char.isDigit = [] then none
      else some (start + (text.takeWhile Char.isDigit).length) := by
  rw [digits, Source.skipWhile_isNumeric h, nonempty]
  cases text.takeWhile Char.isDigit <;> simp

/-- A numeral with a mark is there if the text begins with the mark and a digit. -/
theorem radixNumeral_eq_some (hm : m.val.toNat < 128) :
    radixNumeral m s start = some stop ↔
      ∃ d rest, text = '0' :: m :: d :: rest ∧ d.isDigit = true ∧
        stop = start + 2 + ((d :: rest).takeWhile Char.isDigit).length := by
  have hzero : ('0' : Char).val.toNat < 128 := by decide
  constructor
  · intro hsome
    rw [radixNumeral] at hsome
    split at hsome
    · next hmark =>
        obtain ⟨hfirst, hsecond⟩ := hmark
        cases text with
        | nil => cases (Source.byte?_of_end h).symm.trans hfirst
        | cons c w =>
            obtain rfl := (Source.byte?_iff_char h hzero).1 hfirst
            have h₁ := Source.drop_succ_of_ascii h hzero
            cases w with
            | nil => cases (Source.byte?_of_end h₁).symm.trans hsecond
            | cons c w =>
                obtain rfl := (Source.byte?_iff_char h₁ hm).1 hsecond
                have h₂ := Source.drop_succ_of_ascii h₁ hm
                rw [digits_eq_takeWhile h₂] at hsome
                split at hsome
                · cases hsome
                · next hne =>
                    cases w with
                    | nil => exact absurd rfl hne
                    | cons d rest =>
                        refine ⟨d, rest, rfl, ?_, (Option.some.inj hsome).symm⟩
                        by_contra hd
                        exact hne (List.takeWhile_cons_of_neg hd)
    · cases hsome
  · intro hex
    obtain ⟨d, rest, rfl, hd, rfl⟩ := hex
    have h₁ := Source.drop_succ_of_ascii h hzero
    have h₂ := Source.drop_succ_of_ascii h₁ hm
    rw [radixNumeral, if_pos ⟨(Source.byte?_iff_char h hzero).2 rfl,
      (Source.byte?_iff_char h₁ hm).2 rfl⟩, digits_eq_takeWhile h₂, if_neg]
    simp [hd]

theorem begins_of_radixNumeral (base : (m, radix) ∈ Numeral.marks)
    (hsome : radixNumeral m s start = some stop) :
    ∃ mark radix ds, Numeral.Begins text mark radix ds ∧ ds ≠ [] ∧
      stop = start + mark.length + ds.length := by
  obtain ⟨d, rest, rfl, hd, rfl⟩ :=
    (radixNumeral_eq_some h (Numeral.ascii_of_mem_marks base)).1 hsome
  exact ⟨_, _, _, .marked base hd, by simp [hd], rfl⟩

theorem begins_of_numeral (hsome : numeral s start = some stop) :
    ∃ mark radix ds, Numeral.Begins text mark radix ds ∧ ds ≠ [] ∧
      stop = start + mark.length + ds.length := by
  rw [numeral] at hsome
  simp only [List.findSome?_cons, List.findSome?_nil] at hsome
  cases hx : hexadecimal s start with
  | some _ =>
      rw [hx] at hsome
      cases hsome
      exact begins_of_radixNumeral h (show ('x', 16) ∈ Numeral.marks by simp [Numeral.marks]) hx
  | none =>
  cases ho : octal s start with
  | some _ =>
      rw [hx, ho] at hsome
      cases hsome
      exact begins_of_radixNumeral h (show ('o', 8) ∈ Numeral.marks by simp [Numeral.marks]) ho
  | none =>
  cases hb : binary s start with
  | some _ =>
      rw [hx, ho, hb] at hsome
      cases hsome
      exact begins_of_radixNumeral h (show ('b', 2) ∈ Numeral.marks by simp [Numeral.marks]) hb
  | none =>
      -- no mark is there, or one of the three would have been found
      have hnone {m : Char} {radix : Nat} (base : (m, radix) ∈ Numeral.marks) :
          radixNumeral m s start = none := by
        simp only [Numeral.marks, List.mem_cons, Prod.mk.injEq, List.not_mem_nil, or_false] at base
        rcases base with ⟨rfl, -⟩ | ⟨rfl, -⟩ | ⟨rfl, -⟩ <;> assumption
      have hdigits : digits s start = some stop := by
        rw [hx, ho, hb] at hsome
        cases hd : digits s start <;>
          · rw [hd] at hsome
            exact hsome
      rw [digits_eq_takeWhile h] at hdigits
      split at hdigits
      · cases hdigits
      · next hne =>
          cases hdigits
          refine ⟨[], 10, _, .plain fun m d rest radix htext base => ?_, hne, rfl⟩
          by_contra hd
          have hfound := (radixNumeral_eq_some h (Numeral.ascii_of_mem_marks base)).2
            ⟨d, rest, htext, by simpa using hd, rfl⟩
          cases (hnone base).symm.trans hfound

/-- Whatever a text begins with, some rule of numerals finds a numeral there. -/
theorem isSome_numeral (hbegins : Numeral.Begins text mark radix ds) (hne : ds ≠ []) :
    (numeral s start).isSome = true := by
  rw [numeral, List.findSome?_isSome_iff]
  cases hbegins with
  | @marked m d rest radix base digit =>
      have hfound := (radixNumeral_eq_some h (Numeral.ascii_of_mem_marks base)).2
        ⟨d, rest, rfl, digit, rfl⟩
      simp only [Numeral.marks, List.mem_cons, Prod.mk.injEq, List.not_mem_nil, or_false] at base
      rcases base with ⟨rfl, -⟩ | ⟨rfl, -⟩ | ⟨rfl, -⟩
      · exact ⟨hexadecimal, by simp, by simp [hexadecimal, hfound]⟩
      · exact ⟨octal, by simp, by simp [octal, hfound]⟩
      · exact ⟨binary, by simp, by simp [binary, hfound]⟩
  | plain _ => exact ⟨digits, by simp, by simp [digits_eq_takeWhile h, hne]⟩

/-- The rule of numerals finds what the text begins with. -/
theorem numeral_eq_some_iff :
    numeral s start = some stop ↔ ∃ mark radix ds, Numeral.Begins text mark radix ds ∧ ds ≠ [] ∧
      stop = start + mark.length + ds.length := by
  constructor
  · exact begins_of_numeral h
  · intro hex
    obtain ⟨mark, radix, ds, hbegins, hne, rfl⟩ := hex
    obtain ⟨stop, hstop⟩ := Option.isSome_iff_exists.1 (isSome_numeral h hbegins hne)
    obtain ⟨_, _, _, hbegins', -, rfl⟩ := begins_of_numeral h hstop
    obtain ⟨rfl, -, rfl⟩ := hbegins.unique hbegins'
    exact hstop

end Literal

/-! ## The production -/

namespace Numeral

/-- The value of a numeral, by the digits that belong to its base. -/
theorem value_of_begins {t : String} (h : Begins text mark radix ds) (hne : ds ≠ [])
    (ht : t.toList = mark ++ ds) :
    value t =
      if UInt64.size ≤ number radix (proper radix ds) then .error (.integerOverflow t)
      else if proper radix ds = ds then .ok (.ofNat (number radix (proper radix ds)))
      else .error (.invalidDigit t radix) := by
  have hdigits := isDigit_of_begins h
  have hproper : ∀ c ∈ proper radix ds, c.isDigit = true := fun c hc =>
    hdigits c ((List.takeWhile_sublist _).subset hc)
  rw [value, ht, radixAndDigits_of_begins h]
  simp only [List.isEmpty_iff, hne, if_false]
  rw [valueFrom_eq (radix_pos_of_begins h) (by decide) hdigits, positional_eq_number hproper,
    positional_eq_number hdigits]
  by_cases hbig : UInt64.size ≤ number radix (proper radix ds)
  · rw [if_pos hbig, if_pos hbig]
  · rw [if_neg hbig, if_neg hbig]
    by_cases hall : proper radix ds = ds
    · rw [if_pos hall, if_pos hall, hall]
    · rw [if_neg hall, if_neg hall]

end Numeral

/-- What a numeral covers are its mark and its digits. -/
theorem Source.toList_of_begins {t u : String} (hu : s.slice? start s.size = some u)
    (h : Numeral.Begins u.toList mark radix ds)
    (ht : s.slice? start (start + mark.length + ds.length) = some t) : t.toList = mark ++ ds := by
  obtain ⟨rest, hrest⟩ := Numeral.exists_rest_of_begins h
  have hlength : ((mark ++ ds).flatMap String.utf8EncodeChar).length =
      start + mark.length + ds.length - start := by
    rw [length_flatMap_of_ascii (Numeral.ascii_of_begins h), List.length_append]
    omega
  obtain ⟨-, -, -, hbytes⟩ := slice?_eq_some.1 ht
  rw [drop_of_slice? hu, hrest, List.flatMap_append, ← hlength, List.take_left,
    ← bytesOf_ofList] at hbytes
  rw [bytesOf_injective hbytes, String.toList_ofList]

/-- The numeral at an offset is the token that is read there. -/
theorem Source.lexeme?_of_numeral {t : String} (h : Literal.numeral s start = some stop)
    (ht : s.slice? start stop = some t) :
    s.lexeme? start = some ⟨.integer, t, ⟨start, stop⟩⟩ := by
  have hblank : s.skipBlanks start = start := by
    obtain ⟨b, hb, hn⟩ := byteIn_iff.1 (Literal.numeral_eq_some h).1
    have hdisjoint : ∀ b, ByteClass.isNumeric b = true → ByteClass.isBlank b = false := by
      decide +kernel
    refine skipWhile_of_not_byteIn ?_
    rw [byteIn, hb]
    exact hdisjoint b hn
  refine lexeme?_eq_some.2 ⟨hblank.symm, ?_, ?_⟩
  · rw [hblank]
    exact congrArg Except.ok h
  · simp [TokenKind.textOf, ht]

/-- The production takes the numeral that is there and gives it its value. -/
theorem Grammar.run_integer {ν : Type} {cx : Context} {env : ν → Matcher} {p : Progress}
    {x : Lexeme} (d : Draft) (hp : cx.Affords p) (hx : cx.source.lexeme? start = some x)
    (hk : x.kind = .integer) :
    integer.run cx env start ⟨d, p⟩ =
      match Numeral.value x.text with
      | .ok value => .ok x.span.stop ⟨d.completeInteger value, p.spend⟩
      | .error cause => .error (.fatal { cause, span := x.span }) ⟨d, p.spend⟩ := by
  have hlex := Context.lex_of_lexeme? hp hx
  rw [hk] at hlex
  rw [integer, Pattern.run, Matcher.token]
  simp only [hlex]
  rw [State.settle, Draft.attachNumeral]
  cases Numeral.value x.text <;> rfl

/-- A numeral takes of what stands at an offset the mark of a base, if a digit comes behind
it, and then all digits. Asked there with a draft of which nothing is known, the production
fails as too great if the digits up to the first that does not belong to the base denote a
number of more than 64 bits, else it fails at that digit if there is one, and else it comes
to just the number that is denoted, and to the end of the numeral. -/
theorem numerals_read_exactly {ν : Type} {cx : Context} {env : ν → Matcher} {p : Progress}
    (h : Literal.numeral cx.source start = some stop) (hp : cx.Affords p) :
    ∃ t text mark radix ds, cx.source.slice? start stop = some t ∧
      cx.source.slice? start cx.source.size = some text ∧
      Numeral.Begins text.toList mark radix ds ∧ t.toList = mark ++ ds ∧
      let proper := Numeral.proper radix ds
      let number := Numeral.number radix proper
      let outcome := (Grammar.integer : Pattern ν).run cx env start ⟨.blank, p⟩
      (2 ^ 64 ≤ number → outcome = .error
        (.fatal { cause := .integerOverflow t, span := ⟨start, stop⟩ }) ⟨.blank, p.spend⟩) ∧
      (number < 2 ^ 64 → proper ≠ ds → outcome = .error
        (.fatal { cause := .invalidDigit t radix, span := ⟨start, stop⟩ }) ⟨.blank, p.spend⟩) ∧
      (number < 2 ^ 64 → proper = ds → ∃ value : UInt64, value.toNat = number ∧
        outcome = .ok stop ⟨Draft.blank.completeInteger value, p.spend⟩) := by
  obtain ⟨hlt, hstart, hstop⟩ :=
    TokenKind.matchAt_bounds (k := .integer) (congrArg Except.ok h)
  obtain ⟨t, ht⟩ := Source.exists_slice? hstart hstop (Nat.le_of_lt hlt)
  obtain ⟨text, htext⟩ := Source.exists_slice? hstart cx.source.boundary_size hstart.le_size
  obtain ⟨mark, radix, ds, hbegins, hne, rfl⟩ :=
    (Literal.numeral_eq_some_iff (Source.drop_of_slice? htext)).1 h
  have hsplit := Source.toList_of_begins htext hbegins ht
  refine ⟨t, text, mark, radix, ds, ht, htext, hbegins, hsplit, ?_⟩
  simp only
  rw [Grammar.run_integer .blank hp (Source.lexeme?_of_numeral h ht) rfl]
  simp only [Numeral.value_of_begins hbegins hne hsplit]
  have hsize : UInt64.size = 2 ^ 64 := rfl
  refine ⟨fun hbig => ?_, fun hsmall hrest => ?_, fun hsmall hall => ?_⟩
  · rw [if_pos (hsize ▸ hbig)]
  · rw [if_neg (Nat.not_le.2 (hsize ▸ hsmall)), if_neg hrest]
  · rw [if_neg (Nat.not_le.2 (hsize ▸ hsmall)), if_pos hall]
    refine ⟨_, ?_, rfl⟩
    rw [UInt64.toNat_ofNat']
    exact Nat.mod_eq_of_lt hsmall

/-- A numeral that is too great before its last digit, which does not belong to its base. -/
theorem numerals_read_exactly_both :
    ∃ cx : Context, cx = { source := ⟨"[0o20000000000000000000009]"⟩ } ∧
      Literal.numeral cx.source 1 = some 26 ∧ cx.Affords .none ∧
      (Grammar.integer : Pattern Nonterminal).run cx (Grammar.meaning cx) 1 .initial =
        .error (.fatal { cause := .integerOverflow "0o20000000000000000000009",
                         span := ⟨1, 26⟩ }) ⟨.blank, Progress.none.spend⟩ := by
  let cx : Context := { source := ⟨"[0o20000000000000000000009]"⟩ }
  have htext : cx.source.slice? 1 27 = some "0o20000000000000000000009]" := by cbv
  have hslice : cx.source.slice? 1 26 = some "0o20000000000000000000009" := by cbv
  have hnumeral : Literal.numeral cx.source 1 = some 26 :=
    (Literal.numeral_eq_some_iff (Source.drop_of_slice? htext)).2
      ⟨['0', 'o'], 8, _, .marked (by decide) rfl, by decide, rfl⟩
  have haffords : cx.Affords .none := Context.affords_of_unlimited rfl _
  obtain ⟨t, text, mark, radix, ds, ht, -, hbegins, hsplit, hbig, -⟩ :=
    @numerals_read_exactly 1 26 _ cx (Grammar.meaning cx) _ hnumeral haffords
  obtain rfl := Option.some.inj (ht.symm.trans hslice)
  have hparts := Numeral.radixAndDigits_of_begins hbegins
  rw [← hsplit] at hparts
  obtain ⟨rfl, rfl⟩ := Prod.mk.inj hparts
  exact ⟨cx, rfl, hnumeral, haffords, hbig (by decide)⟩

end WeLang
