import Mathlib.Order.Bounds.Basic
import WeLang.Proofs.Exclusive
import WeLang.Proofs.Lines
import WeLang.Proofs.Quoting

/-!
# Where a string ends

A string ends at the first quote that closes it, where quotes are told apart by the
backslashes directly before them (`Source.Closing`). To read on from there is to go from
the left, over a backslash together with the byte behind it. That byte may be the first of
a long character, and then the search goes on inside that character, but no byte there is
like a quote or a backslash.

So whatever text is to be written as a string can be: with a backslash before each of its
quotes and backslashes (`Literal.escape`) none of them means anything, and the string ends
where it should.
-/

namespace WeLang

variable {s : Source} {start stop pos j : Nat} {bs r : List UInt8} {c : Char}

/-! ## The first quote that closes -/

namespace Literal

/-- The search stops behind the first quote that closes. -/
theorem closingQuote_eq_least :
    closingQuote s pos = some stop ↔ ∃ j, stop = j + 1 ∧ IsLeast {j | s.Closing pos j} j := by
  fun_induction closingQuote s pos with
  | case1 pos hend =>
      refine iff_of_false (Option.some_ne_none _).symm fun hex => ?_
      obtain ⟨j, -, hj, -⟩ := hex
      exact Source.not_closing_of_end hend hj
  | case2 pos hb =>
      have hleast : IsLeast {j | s.Closing pos j} pos :=
        ⟨Source.closing_self hb, fun j hj => hj.le⟩
      constructor
      · intro heq
        exact ⟨pos, (Option.some.inj heq).symm, hleast⟩
      · intro hex
        obtain ⟨j, rfl, hj⟩ := hex
        rw [hj.unique hleast]
  | case3 pos hb _ ih =>
      simp only [ih, Source.closing_add_two hb]
  | case4 pos b hb hquote hne ih =>
      have hquote : s.byte? pos ≠ some '"'.toUInt8 := by simpa [hb] using hquote
      have hne : s.byte? pos ≠ some '\\'.toUInt8 := by simpa [hb] using hne
      simp only [ih, Source.closing_succ hquote hne]

/-- What is between the quotes is a text. -/
theorem contents?_of_closing (hopen : s.byte? start = some '"'.toUInt8)
    (hj : s.Closing (start + 1) j) :
    ∃ text, s.slice? (start + 1) j = some text ∧ contents? s start (j + 1) = some text := by
  obtain ⟨text, htext⟩ := Source.exists_slice?
    (Source.boundary_succ_of_ascii hopen (by decide))
    (Source.boundary_of_ascii hj.quote (by decide)) hj.le
  have hlong : start + 2 ≤ j + 1 := Nat.succ_le_succ hj.le
  exact ⟨text, htext, by rw [contents?, if_pos hlong, Nat.add_sub_cancel, htext]⟩

end Literal

/-! ## Texts in which nothing closes -/

theorem Source.byte?_of_drop {b : UInt8} (h : (bytesOf s.text).drop pos = b :: bs) :
    s.byte? pos = some b ∧ (bytesOf s.text).drop (pos + 1) = bs := by
  constructor
  · rw [byte?_eq_getElem?, ← Nat.add_zero pos, ← List.getElem?_drop, h]
    rfl
  · rw [← List.drop_drop, h]
    rfl

namespace Literal

/-- What a character is written as in a string. -/
def escapeChar (c : Char) : List Char :=
  if c = '"' ∨ c = '\\' then ['\\', c] else [c]

/-- A text with a backslash before each of its quotes and backslashes. -/
def escape (text : String) : String :=
  String.ofList (text.toList.flatMap escapeChar)

/-- A text as it is written as a string. -/
def quoted (text : String) : String :=
  "\"" ++ escape text ++ "\""

/-- The search goes over bytes of which none is a quote or a backslash. -/
theorem closingQuote_of_plain (h : (bytesOf s.text).drop pos = bs ++ r)
    (hplain : ∀ b ∈ bs, b ≠ '"'.toUInt8 ∧ b ≠ '\\'.toUInt8) :
    closingQuote s pos = closingQuote s (pos + bs.length) := by
  induction bs generalizing pos with
  | nil => rfl
  | cons b bs ih =>
      obtain ⟨hb, hrest⟩ := Source.byte?_of_drop h
      obtain ⟨⟨hquote, hslash⟩, hplain⟩ := List.forall_mem_cons.1 hplain
      rw [closingQuote_of_byte? hb, if_neg hquote, if_neg hslash, ih hrest hplain,
        List.length_cons]
      congr 1
      omega

/-- The search goes over a character that is written in a string. -/
theorem closingQuote_of_escapeChar
    (h : (bytesOf s.text).drop pos = (escapeChar c).flatMap String.utf8EncodeChar ++ r) :
    closingQuote s pos =
      closingQuote s (pos + ((escapeChar c).flatMap String.utf8EncodeChar).length) := by
  rw [escapeChar] at h ⊢
  split at h
  · next hc =>
      rw [if_pos hc]
      have hbytes : String.utf8EncodeChar '\\' = ['\\'.toUInt8] := by rfl
      have hlength : (String.utf8EncodeChar c).length = 1 := by
        rcases hc with rfl | rfl <;> rfl
      simp only [List.flatMap_cons, List.flatMap_nil, hbytes, List.append_nil,
        List.cons_append] at h
      rw [closingQuote_of_byte? (Source.byte?_of_drop h).1, if_neg (by decide), if_pos rfl]
      simp [hbytes, hlength]
  · next hc =>
      rw [if_neg hc]
      rw [not_or] at hc
      refine closingQuote_of_plain h fun b hb => ⟨fun heq => ?_, fun heq => ?_⟩
      · subst heq
        exact hc.1 (eq_of_ascii_mem (by decide) (by simpa using hb))
      · subst heq
        exact hc.2 (eq_of_ascii_mem (by decide) (by simpa using hb))

/-- The search goes over a text that is written in a string, to the quote behind it. -/
theorem closingQuote_of_escape {w : List Char}
    (h : (bytesOf s.text).drop pos =
      bytesOf (String.ofList (w.flatMap escapeChar)) ++ '"'.toUInt8 :: r) :
    closingQuote s pos =
      some (pos + (String.ofList (w.flatMap escapeChar)).utf8ByteSize + 1) := by
  rw [← length_bytesOf]
  rw [bytesOf_ofList] at h ⊢
  induction w generalizing pos with
  | nil =>
      rw [closingQuote_of_byte? (Source.byte?_of_drop h).1, if_pos rfl]
      rfl
  | cons c w ih =>
      rw [List.flatMap_cons, List.flatMap_append] at h ⊢
      rw [List.append_assoc] at h
      have hrest := congrArg (List.drop ((escapeChar c).flatMap String.utf8EncodeChar).length) h
      rw [List.drop_drop, List.drop_left] at hrest
      rw [closingQuote_of_escapeChar h, ih hrest, List.length_append]
      congr 1
      omega

/-- A written text is read to its end, whatever stands before it and behind it. -/
theorem string_quoted (before text rest : String) :
    string ⟨before ++ quoted text ++ rest⟩ before.utf8ByteSize =
      .ok (some (before ++ quoted text).utf8ByteSize) := by
  have hbytes : (bytesOf (before ++ quoted text ++ rest)).drop before.utf8ByteSize =
      '"'.toUInt8 :: (bytesOf (escape text) ++ '"'.toUInt8 :: bytesOf rest) := by
    have hquote : bytesOf "\"" = ['"'.toUInt8] := by decide
    rw [← length_bytesOf before, quoted]
    simp only [bytesOf_append, List.append_assoc, List.drop_left, hquote, List.cons_append,
      List.nil_append]
  obtain ⟨hopen, hinner⟩ := Source.byte?_of_drop (s := ⟨before ++ quoted text ++ rest⟩) hbytes
  refine string_eq_some.2 ⟨hopen, ?_⟩
  rw [closingQuote_of_escape hinner]
  have hquote : String.utf8ByteSize "\"" = 1 := by decide
  simp only [quoted, String.utf8ByteSize_append, hquote, escape]
  congr 1
  omega

/-- What is between the quotes of a written text is the text with its escapes. -/
theorem contents?_quoted (before text rest : String) :
    contents? ⟨before ++ quoted text ++ rest⟩ before.utf8ByteSize
      (before ++ quoted text).utf8ByteSize = some (escape text) := by
  have hquote : String.utf8ByteSize "\"" = 1 := by decide
  rw [contents?, quoted]
  simp only [String.utf8ByteSize_append, hquote]
  rw [if_pos (by omega)]
  refine Source.slice?_iff_append.2 ⟨before ++ "\"", "\"" ++ rest, ?_, ?_, ?_⟩
  · simp only [String.append_assoc]
  · rw [String.utf8ByteSize_append, hquote]
  · simp only [String.utf8ByteSize_append, hquote]
    omega

end Literal

/-- A string ends behind the first quote that closes it, with the text up to that quote for
its contents, and is not finished if there is none. So every text can be written as a
string: with a backslash before each of its quotes and backslashes, it is read as one
string that ends with the quote behind it, wherever it is written. -/
theorem string_ends_at_first_closing :
    (∀ (s : Source) (start : Nat), s.byte? start = some '"'.toUInt8 →
      (∀ stop, Literal.string s start = .ok (some stop) ↔
        ∃ j, stop = j + 1 ∧ IsLeast {j | s.Closing (start + 1) j} j) ∧
      (∀ j, IsLeast {j | s.Closing (start + 1) j} j →
        ∃ text, s.slice? (start + 1) j = some text ∧
          Literal.contents? s start (j + 1) = some text) ∧
      ∀ u, Literal.string s start = .error u ↔
        u = ⟨start⟩ ∧ ∀ j, ¬ s.Closing (start + 1) j) ∧
    ∀ before text rest : String,
      Literal.string ⟨before ++ Literal.quoted text ++ rest⟩ before.utf8ByteSize =
          .ok (some (before ++ Literal.quoted text).utf8ByteSize) ∧
        Literal.contents? ⟨before ++ Literal.quoted text ++ rest⟩ before.utf8ByteSize
          (before ++ Literal.quoted text).utf8ByteSize = some (Literal.escape text) := by
  refine ⟨fun s start hopen => ⟨fun stop => ?_, fun j hj => ?_, fun u => ?_⟩,
    fun before text rest => ⟨?_, ?_⟩⟩
  · rw [Literal.string_eq_some, Literal.closingQuote_eq_least]
    exact and_iff_right hopen
  · exact Literal.contents?_of_closing hopen hj.1
  · rw [Literal.string_eq_error, Literal.closingQuote_eq_none, and_iff_right hopen, and_comm]
  · exact Literal.string_quoted before text rest
  · exact Literal.contents?_quoted before text rest

/-- The first of two quotes behind a long character is taken away, and the second closes. -/
theorem string_ends_at_first_closing_escaped :
    Source.byte? ⟨"\"é\\\"\" \""⟩ 0 = some '"'.toUInt8 ∧
      IsLeast {j | Source.Closing ⟨"\"é\\\"\" \""⟩ 1 j} 5 := by
  have hopen : Source.byte? ⟨"\"é\\\"\" \""⟩ 0 = some '"'.toUInt8 := by decide
  have hstring : Literal.string ⟨"\"é\\\"\" \""⟩ 0 = .ok (some 6) := by cbv
  obtain ⟨j, hj, hleast⟩ := ((string_ends_at_first_closing.1 _ 0 hopen).1 6).1 hstring
  obtain rfl : j = 5 := by omega
  exact ⟨hopen, hleast⟩

end WeLang
