/-!
# Source text

A source is a string that is addressed by byte offset. Every rule of the
language looks at single bytes, and every span it reports is a pair of byte
offsets, so this is the only view of text the rest of the library uses.

Offsets are plain numbers and none of them is out of reach. Past the end there
is no byte, and between the two ends of a character there are bytes but no
text: `slice?` and `char?` answer `none` there instead of inventing some. That
keeps every rule total without a side condition on where it is asked.
-/

namespace WeLang

/-- A text to be scanned or parsed. -/
structure Source where
  /-- The characters of the source. -/
  text : String
deriving DecidableEq, Inhabited, Repr

namespace Source

/-- How many bytes the source takes. -/
def size (s : Source) : Nat :=
  s.text.utf8ByteSize

/-- The byte at an offset, if the offset lies before the end. -/
def byte? (s : Source) (i : Nat) : Option UInt8 :=
  if h : i < s.size then some (s.text.getUTF8Byte ⟨i⟩ h) else none

theorem byte?_eq_none {s : Source} {i : Nat} (h : s.size ≤ i) : s.byte? i = none := by
  simp [byte?, Nat.not_lt.2 h]

theorem lt_size_of_byte? {s : Source} {i : Nat} {b : UInt8} (h : s.byte? i = some b) :
    i < s.size := by
  rcases Nat.lt_or_ge i s.size with hi | hi
  · exact hi
  · rw [byte?_eq_none hi] at h
    exact nomatch h

/-- Whether the byte at an offset is there and belongs to a class. -/
def byteIn (s : Source) (p : UInt8 → Bool) (i : Nat) : Bool :=
  (s.byte? i).any p

theorem lt_size_of_byteIn {s : Source} {p : UInt8 → Bool} {i : Nat}
    (h : s.byteIn p i = true) : i < s.size := by
  obtain ⟨b, hb, _⟩ := (Option.any_eq_true ..).1 h
  exact lt_size_of_byte? hb

/-- The offset of the first byte at or after `pos` that is outside the class.
An offset past the end is its own answer. -/
def skipWhile (s : Source) (p : UInt8 → Bool) (pos : Nat) : Nat :=
  if h : s.byteIn p pos then s.skipWhile p (pos + 1) else pos
termination_by s.size - pos
decreasing_by
  have := lt_size_of_byteIn h
  omega

theorem skipWhile_of_byteIn {s : Source} {p : UInt8 → Bool} {pos : Nat}
    (h : s.byteIn p pos = true) : s.skipWhile p pos = s.skipWhile p (pos + 1) := by
  rw [skipWhile, dif_pos h]

theorem skipWhile_of_not_byteIn {s : Source} {p : UInt8 → Bool} {pos : Nat}
    (h : s.byteIn p pos = false) : s.skipWhile p pos = pos := by
  rw [skipWhile, dif_neg (by simp [h])]

theorem le_skipWhile (s : Source) (p : UInt8 → Bool) (pos : Nat) : pos ≤ s.skipWhile p pos := by
  fun_induction skipWhile s p pos with
  | case1 pos _ ih => omega
  | case2 pos _ => exact Nat.le_refl pos

theorem skipWhile_le (s : Source) (p : UInt8 → Bool) (pos : Nat) :
    s.skipWhile p pos ≤ max pos s.size := by
  fun_induction skipWhile s p pos with
  | case1 pos h ih =>
      have := lt_size_of_byteIn h
      omega
  | case2 pos _ => omega

/-- The skipped stretch ends where the class does: the byte it stops at, if
there is one, is outside. -/
theorem not_byteIn_skipWhile (s : Source) (p : UInt8 → Bool) (pos : Nat) :
    s.byteIn p (s.skipWhile p pos) = false := by
  fun_induction skipWhile s p pos with
  | case1 _ _ ih => exact ih
  | case2 pos h => exact Bool.eq_false_iff.2 h

/-- Whether the bytes `bs` stand at `pos`, all of them before the end. No bytes
at all stand everywhere up to the end, and nowhere after it. -/
def hasBytes (s : Source) : List UInt8 → Nat → Bool
  | [], pos => pos ≤ s.size
  | b :: bs, pos => s.byte? pos == some b && s.hasBytes bs (pos + 1)

/-- An offset as a position in the text, if it falls between two characters or
at either end. -/
def boundary? (s : Source) (i : Nat) : Option s.text.Pos :=
  if h : String.Pos.Raw.isValid s.text ⟨i⟩ then
    some ⟨⟨i⟩, String.Pos.Raw.isValid_eq_true_iff.1 h⟩
  else none

/-- The text between two offsets. There is none if an offset falls inside a
character or past the end, or if the two are in the wrong order. -/
def slice? (s : Source) (start stop : Nat) : Option String :=
  match s.boundary? start, s.boundary? stop with
  | some p, some q => if start ≤ stop then some (s.text.extract p q) else none
  | _, _ => none

/-- The character that starts at an offset. -/
def char? (s : Source) (i : Nat) : Option Char :=
  match s.boundary? i with
  | some p => if h : p = s.text.endPos then none else some (p.get h)
  | none => none

end Source

end WeLang
