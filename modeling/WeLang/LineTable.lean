import WeLang.Source
import WeLang.Diagnostic

/-!
# Lines and columns

To turn an offset into a line and a column one needs to know where the lines of
the source start. A line table is the list of these offsets. The line of an
offset is the last one that does not start after it; the column counts the
characters from the start of that line.

Offsets past the end are in the last line, and their column is that of the end.
An offset inside a character has no text up to it, so there the column counts
bytes instead. Lines and columns are 32-bit numbers, and of a count that does not
fit into 32 bits they are the greatest one.
-/

namespace WeLang

/-- The greatest number of a line or a column. -/
def Location.greatest : Nat := UInt32.size - 1

/-- A count from zero as a line or column number, which count from one. There is one count
that fits into 32 bits while the number does not, and it gives zero. -/
def Location.ordinal (n : Nat) : UInt32 :=
  (if n < UInt32.size then .ofNat n else .ofNat (greatest - 1)) + 1

/-- The offsets at which the lines of a source start. -/
structure LineTable where
  starts : List Nat
deriving DecidableEq, Repr

namespace LineTable

/-- The offsets after the line feeds from `pos` on, in increasing order. -/
def startsAfter (s : Source) (pos : Nat) : List Nat :=
  match h : s.byte? pos with
  | none => []
  | some b =>
      if b = '\n'.toUInt8 then (pos + 1) :: startsAfter s (pos + 1)
      else startsAfter s (pos + 1)
termination_by s.size - pos
decreasing_by all_goals
  have := Source.lt_size_of_byte? h
  omega

/-- The line table of a source: its first line starts at zero, and another one
after every line feed. -/
def ofSource (s : Source) : LineTable :=
  ⟨0 :: startsAfter s 0⟩

/-- Which line an offset is in, counted from zero. -/
def lineIndex (table : LineTable) (offset : Nat) : Nat :=
  table.starts.countP (· ≤ offset) - 1

/-- The number of the line that an offset is in. -/
def line (table : LineTable) (offset : Nat) : UInt32 :=
  Location.ordinal (table.lineIndex offset)

/-- Where an offset is in the source that the table was made of. -/
def locate (table : LineTable) (s : Source) (offset : Nat) : Location :=
  let line := table.line offset
  let start := table.starts.getD (line - 1).toNat 0
  let stop := min offset s.size
  let before := match s.slice? start stop with
    | some text => text.length
    | none => stop - start
  ⟨line, Location.ordinal before⟩

end LineTable

/-- Where an offset is in a source. -/
def Source.locate (s : Source) (offset : Nat) : Location :=
  (LineTable.ofSource s).locate s offset

end WeLang
