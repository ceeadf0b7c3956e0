import WeLang.Source

/-!
# Classes of bytes

Names, numerals and blanks are made of ASCII characters only. The bytes of any
other character are in no class, so a rule that is built on these classes never
stops inside a character.
-/

namespace WeLang

namespace ByteClass

/-- The decimal digits. -/
def isNumeric (b : UInt8) : Bool :=
  '0'.toUInt8 ≤ b && b ≤ '9'.toUInt8

/-- The letters, small and capital. -/
def isAlphabetic (b : UInt8) : Bool :=
  ('a'.toUInt8 ≤ b && b ≤ 'z'.toUInt8) || ('A'.toUInt8 ≤ b && b ≤ 'Z'.toUInt8)

/-- What may follow in a name: letters, digits and the underscore. -/
def isNameByte (b : UInt8) : Bool :=
  isAlphabetic b || isNumeric b || b == '_'.toUInt8

/-- What may stand between tokens: space, tab, line feed and carriage return. -/
def isBlank (b : UInt8) : Bool :=
  b == ' '.toUInt8 || b == '\t'.toUInt8 || b == '\n'.toUInt8 || b == '\r'.toUInt8

theorem isNameByte_of_isAlphabetic {b : UInt8} (h : isAlphabetic b = true) :
    isNameByte b = true := by
  simp [isNameByte, h]

theorem isNameByte_of_isNumeric {b : UInt8} (h : isNumeric b = true) : isNameByte b = true := by
  simp [isNameByte, h]

end ByteClass

/-- The offset of the first byte at or after `pos` that is not blank. -/
def Source.skipBlanks (s : Source) (pos : Nat) : Nat :=
  s.skipWhile ByteClass.isBlank pos

theorem Source.le_skipBlanks (s : Source) (pos : Nat) : pos ≤ s.skipBlanks pos :=
  s.le_skipWhile _ pos

theorem Source.skipBlanks_le (s : Source) (pos : Nat) : s.skipBlanks pos ≤ max pos s.size :=
  s.skipWhile_le _ pos

/-- Nothing but blanks is left from an offset on. -/
def Source.isSpent (s : Source) (pos : Nat) : Bool :=
  s.size ≤ s.skipBlanks pos

end WeLang
