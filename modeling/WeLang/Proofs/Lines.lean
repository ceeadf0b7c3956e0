import Mathlib
import WeLang.LineTable
import WeLang.Scanner
import WeLang.Proofs.Text

/-!
# Lines and columns

A line and a column are found in two ways. The scanner counts while it walks, one
character after the other. An error is given its place in the end, with a table of the
offsets at which the lines start. Here both are compared with the plain count of what
stands before an offset, `Source.placeAt`, which says nothing of a walk or a table.

For the scanner this is an invariant, `Scanner.Placed`: whatever it does between two
offsets, it counts what is between them, and counts add up (`Location.after_append`).
For the table it takes a look at the bytes. A line feed is one byte, and no other
character has a byte like it, so the starts in the table are as many as the line feeds
before the offset, and behind the last of them are the characters that make the column
(`LineTable.exists_line`).
-/

namespace WeLang

variable {s : Source} {o o' : Nat} {text : String}

/-! ## The place of an offset -/

theorem Location.after_append (place : Location) (t u : List Char) :
    place.after (t ++ u) = (place.after t).after u :=
  List.foldl_append ..

/-- Where an offset is, by what stands before it. -/
def Source.placeAt (s : Source) (o : Nat) : Location :=
  Location.origin.after ((s.slice? 0 o).getD "").toList

namespace Source

theorem placeAt_of_slice? (h : s.slice? 0 o = some text) :
    s.placeAt o = Location.origin.after text.toList := by
  rw [placeAt, h, Option.getD_some]

theorem placeAt_zero (s : Source) : s.placeAt 0 = .origin := by
  have h : s.slice? 0 0 = some "" := slice?_iff_append.2 ⟨"", s.text, by simp, rfl, rfl⟩
  rw [placeAt_of_slice? h]
  rfl

theorem after_placeAt (h : s.slice? o o' = some text) :
    (s.placeAt o).after text.toList = s.placeAt o' := by
  obtain ⟨ho, _, _, _⟩ := slice?_eq_some.1 h
  obtain ⟨before, hbefore⟩ := exists_slice? s.boundary_zero ho (Nat.zero_le o)
  rw [placeAt_of_slice? hbefore, placeAt_of_slice? (slice?_append hbefore h),
    String.toList_append, Location.after_append]

end Source

/-! ## Counting while walking -/

/-- A scanner that stands between two characters and knows where. -/
structure Scanner.Placed (s : Source) (sc : Scanner) : Prop where
  boundary : s.Boundary sc.position
  location : sc.location = s.placeAt sc.position

namespace Scanner

variable {sc : Scanner}

theorem placed_initial (s : Source) : Placed s .initial :=
  ⟨s.boundary_zero, s.placeAt_zero.symm⟩

theorem Placed.moveTo (h : sc.Placed s) {target : Nat} (ht : s.Boundary target) :
    (sc.moveTo s target).Placed s := by
  rw [Scanner.moveTo]
  split
  · exact h
  · next hlt =>
      obtain ⟨passed, hpassed⟩ := Source.exists_slice? h.boundary ht (by omega)
      refine ⟨ht, ?_⟩
      show sc.location.after ((s.slice? sc.position target).getD "").toList = s.placeAt target
      rw [hpassed, h.location]
      exact Source.after_placeAt hpassed

end Scanner

/-! ## Looking up a table -/

/-- The bytes of characters are those of each of them. -/
theorem bytesOf_ofList (w : List Char) :
    bytesOf (String.ofList w) = w.flatMap String.utf8EncodeChar := by
  rw [bytesOf, String.toByteArray_ofList, List.utf8Encode, List.data_toByteArray]

/-- No character is without a byte. -/
theorem length_le_utf8ByteSize (t : String) : t.toList.length ≤ t.utf8ByteSize := by
  rw [← t.ofList_toList, String.utf8ByteSize_ofList, String.toList_ofList]
  induction t.toList with
  | nil => exact Nat.zero_le _
  | cons c w ih =>
      have := c.utf8Size_pos
      rw [String.utf8Len_cons, List.length_cons]
      omega

/-- No character but an ASCII character itself has a byte like it. -/
theorem eq_of_ascii_mem {a c : Char} (ha : a.val.toNat < 128)
    (h : a.toUInt8 ∈ String.utf8EncodeChar c) : c = a := by
  have hval : a.toUInt8.toNat = a.val.toNat := Nat.mod_eq_of_lt (by omega)
  suffices c.val.toNat = a.val.toNat from Char.ext (UInt32.toNat_inj.1 this)
  rw [String.utf8EncodeChar] at h
  split at h
  · rw [List.mem_singleton, ← UInt8.toNat_inj, UInt8.toNat_ofNat'] at h
    omega
  · exfalso
    split at h
    · simp only [List.mem_cons, List.not_mem_nil, or_false, ← UInt8.toNat_inj,
        UInt8.toNat_ofNat'] at h
      omega
    · split at h
      · simp only [List.mem_cons, List.not_mem_nil, or_false, ← UInt8.toNat_inj,
          UInt8.toNat_ofNat'] at h
        omega
      · simp only [List.mem_cons, List.not_mem_nil, or_false, ← UInt8.toNat_inj,
          UInt8.toNat_ofNat'] at h
        omega

namespace LineTable

/-- The offsets after the line feeds among bytes of which the first stands at `pos`. -/
def startsIn : Nat → List UInt8 → List Nat
  | _, [] => []
  | pos, b :: bs =>
      if b = '\n'.toUInt8 then (pos + 1) :: startsIn (pos + 1) bs else startsIn (pos + 1) bs

theorem startsAfter_eq (s : Source) (pos : Nat) :
    startsAfter s pos = startsIn pos ((bytesOf s.text).drop pos) := by
  fun_induction startsAfter s pos with
  | case1 pos hb =>
      rw [Source.byte?_eq_getElem?, List.getElem?_eq_none_iff] at hb
      rw [List.drop_eq_nil_of_le hb, startsIn]
  | case2 pos hb ih =>
      rw [Source.byte?_eq_getElem?] at hb
      rw [List.drop_eq_getElem?_toList_append, hb]
      simp [startsIn, ih]
  | case3 pos b hb hne ih =>
      rw [Source.byte?_eq_getElem?] at hb
      rw [List.drop_eq_getElem?_toList_append, hb]
      simp [startsIn, ih, hne]

theorem startsIn_append (pos : Nat) (as bs : List UInt8) :
    startsIn pos (as ++ bs) = startsIn pos as ++ startsIn (pos + as.length) bs := by
  induction as generalizing pos with
  | nil => rfl
  | cons a as ih =>
      have hpos : pos + (a :: as).length = pos + 1 + as.length := by
        rw [List.length_cons]
        omega
      rw [List.cons_append, startsIn, startsIn, ih, hpos]
      split <;> rfl

theorem startsIn_bounds {pos n : Nat} {bs : List UInt8} (h : n ∈ startsIn pos bs) :
    pos < n ∧ n ≤ pos + bs.length := by
  induction bs generalizing pos with
  | nil => cases h
  | cons b bs ih =>
      rw [startsIn] at h
      rw [List.length_cons]
      split at h
      · rcases List.mem_cons.1 h with rfl | h
        · omega
        · have := ih h
          omega
      · have := ih h
        omega

theorem length_startsIn_le (pos : Nat) (bs : List UInt8) :
    (startsIn pos bs).length ≤ bs.length := by
  induction bs generalizing pos with
  | nil => exact Nat.le_refl _
  | cons b bs ih =>
      have := ih (pos + 1)
      rw [startsIn]
      split <;> simp only [List.length_cons] <;> omega

theorem startsIn_eq_nil {pos : Nat} {bs : List UInt8} (h : '\n'.toUInt8 ∉ bs) :
    startsIn pos bs = [] := by
  induction bs generalizing pos with
  | nil => rfl
  | cons b bs ih =>
      rw [List.mem_cons, not_or] at h
      rw [startsIn, if_neg (Ne.symm h.1)]
      exact ih h.2

/-- Characters are divided by the start of the last line among them: the lines that
start there are counted by their line, and what is behind is counted by their column. -/
theorem exists_line (w : List Char) :
    ∃ u v, w = u ++ v ∧
      (startsIn 0 (bytesOf (String.ofList w))).getLastD 0 = (String.ofList u).utf8ByteSize ∧
      Location.origin.after w =
        ⟨.ofNat ((startsIn 0 (bytesOf (String.ofList w))).length + 1), .ofNat (v.length + 1)⟩ := by
  induction w using List.reverseRecOn with
  | nil => exact ⟨[], [], rfl, rfl, rfl⟩
  | append_singleton w c ih =>
      obtain ⟨u, v, huv, hlast, hafter⟩ := ih
      rw [Location.after_append, hafter, String.ofList_append, bytesOf_append, startsIn_append,
        Nat.zero_add, length_bytesOf]
      by_cases hc : c = '\n'
      · subst hc
        have hone (pos : Nat) : startsIn pos (bytesOf (String.ofList ['\n'])) = [pos + 1] := rfl
        refine ⟨w ++ ['\n'], [], by simp, ?_, ?_⟩
        · rw [hone, List.getLastD_concat, String.ofList_append, String.utf8ByteSize_append]
          rfl
        · rw [hone, List.length_append, List.length_singleton,
            UInt32.ofNat_add (List.length _ + 1) 1]
          rfl
      · have hnone (pos : Nat) : startsIn pos (bytesOf (String.ofList [c])) = [] := by
          refine startsIn_eq_nil fun hmem => hc (eq_of_ascii_mem (by decide) ?_)
          rw [bytesOf_ofList] at hmem
          simpa using hmem
        refine ⟨u, v ++ [c], by rw [huv, List.append_assoc], ?_, ?_⟩
        · rw [hnone, List.append_nil, hlast]
        · rw [hnone, List.append_nil, List.length_append, List.length_singleton,
            UInt32.ofNat_add (v.length + 1) 1]
          show (if c = '\n' then _ else _) = _
          rw [if_neg hc]
          rfl

/-- A count that is less than the greatest number has a number behind it. -/
theorem ordinal_eq {n : Nat} (h : n < Location.greatest) :
    Location.ordinal n = .ofNat (n + 1) := by
  have hfits : n < UInt32.size := Nat.lt_of_lt_of_le h (Nat.sub_le ..)
  rw [Location.ordinal, if_pos hfits, UInt32.ofNat_add]
  rfl

/-- From its number a line is found again. -/
theorem toNat_ordinal_sub_one {n : Nat} (h : n < Location.greatest) :
    (Location.ordinal n - 1).toNat = n := by
  have hfits : n < UInt32.size := Nat.lt_of_lt_of_le h (Nat.sub_le ..)
  rw [Location.ordinal, if_pos hfits, UInt32.add_sub_cancel, UInt32.toNat_ofNat_of_lt' hfits]

/-- The starts of lines up to an offset are the start of the source and those that the
bytes before the offset make. -/
theorem starts_eq {t r : String} (h : s.text = t ++ r) :
    (ofSource s).starts = 0 :: startsIn 0 (bytesOf t) ++ startsIn t.utf8ByteSize (bytesOf r) := by
  rw [ofSource, startsAfter_eq, List.drop_zero, h, bytesOf_append, startsIn_append,
    Nat.zero_add, length_bytesOf, List.cons_append]

theorem lineIndex_eq {t r : String} (h : s.text = t ++ r) :
    (ofSource s).lineIndex t.utf8ByteSize = (startsIn 0 (bytesOf t)).length := by
  have hbefore : (startsIn 0 (bytesOf t)).countP (· ≤ t.utf8ByteSize) =
      (startsIn 0 (bytesOf t)).length := by
    rw [List.countP_eq_length]
    intro n hn
    have := startsIn_bounds hn
    rw [length_bytesOf] at this
    exact decide_eq_true (by omega)
  have hbehind : (startsIn t.utf8ByteSize (bytesOf r)).countP (· ≤ t.utf8ByteSize) = 0 := by
    rw [List.countP_eq_zero]
    intro n hn
    have := startsIn_bounds hn
    rw [decide_eq_true_iff]
    omega
  rw [lineIndex, starts_eq h, List.countP_append, List.countP_cons_of_pos (by simp), hbefore,
    hbehind]
  omega

theorem getD_lineIndex {t r : String} (h : s.text = t ++ r) :
    (ofSource s).starts.getD (startsIn 0 (bytesOf t)).length 0 =
      (startsIn 0 (bytesOf t)).getLastD 0 := by
  rw [starts_eq h]
  rcases List.eq_nil_or_concat (startsIn 0 (bytesOf t)) with hnil | ⟨ns, n, hns⟩
  · rw [hnil]
    rfl
  · rw [hns]
    simp

end LineTable

/-- Looking up an offset gives the place that is counted, if the source is not too long
for the numbers of its lines and columns. -/
theorem Source.locate_eq_placeAt (h : s.Boundary o) (hs : s.size < Location.greatest) :
    s.locate o = s.placeAt o := by
  obtain ⟨t, r, htext, rfl⟩ := boundary_iff_append.1 h
  obtain ⟨u, v, huv, hlast, hafter⟩ := LineTable.exists_line t.toList
  rw [String.ofList_toList] at hlast hafter
  have hplace : s.placeAt t.utf8ByteSize = Location.origin.after t.toList :=
    placeAt_of_slice? (slice?_iff_append.2 ⟨"", r, by simpa using htext, rfl, by simp⟩)
  have huvs : t = String.ofList u ++ String.ofList v := by
    rw [← String.ofList_append, ← huv, String.ofList_toList]
  have hslice : s.slice? (String.ofList u).utf8ByteSize t.utf8ByteSize =
      some (String.ofList v) :=
    slice?_iff_append.2 ⟨String.ofList u, r, by rw [← huvs, htext], rfl, by rw [← huvs]⟩
  have hsize := h.le_size
  have hlines := LineTable.length_startsIn_le 0 (bytesOf t)
  have hcolumns : v.length ≤ t.utf8ByteSize := by
    have := length_le_utf8ByteSize (String.ofList v)
    rw [String.toList_ofList] at this
    rw [huvs, String.utf8ByteSize_append]
    omega
  rw [length_bytesOf] at hlines
  have hline : (Location.ordinal (LineTable.startsIn 0 (bytesOf t)).length - 1).toNat =
      (LineTable.startsIn 0 (bytesOf t)).length :=
    LineTable.toNat_ordinal_sub_one (by omega)
  rw [hplace, hafter, locate, LineTable.locate, LineTable.line, LineTable.lineIndex_eq htext,
    Nat.min_eq_left hsize]
  simp only [hline, LineTable.getD_lineIndex htext, hlast, hslice]
  rw [String.length_ofList, LineTable.ordinal_eq (by omega), LineTable.ordinal_eq (by omega)]

end WeLang
