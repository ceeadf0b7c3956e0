import WeLang.Lexis.ByteClass

/-!
# Names, numerals and strings

Each of these rules is asked at an offset and answers with the offset after the
longest text of its class that starts there. A match is never empty, so an
absent match needs no offset of its own: it is `none`.

A string literal is the one thing that can begin and not be finished. Whether an
unfinished one is no match or an error depends on who asks, so `string` keeps the
two apart and `closedString` does not.
-/

namespace WeLang

/-- A rule of the language: from an offset in a source to the offset after what
was matched there. -/
abbrev Rule := Source → Nat → Option Nat

namespace Literal

/-- The end of a stretch, if it is not empty. -/
def nonempty (start stop : Nat) : Option Nat :=
  if start < stop then some stop else none

/-- A letter, then letters, digits and underscores. -/
def name : Rule := fun s start =>
  if s.byteIn ByteClass.isAlphabetic start then
    some (s.skipWhile ByteClass.isNameByte (start + 1))
  else none

/-- Decimal digits. -/
def digits : Rule := fun s start =>
  nonempty start (s.skipWhile ByteClass.isNumeric start)

/-- Digits, a point, digits. -/
def decimalFraction : Rule := fun s start => do
  let whole ← digits s start
  if s.byte? whole = some '.'.toUInt8 then digits s (whole + 1) else none

/-- A zero, a letter that marks the base, digits. The digits are decimal ones
whatever the base; whether each of them belongs to it is not asked here. -/
def radixNumeral (mark : Char) : Rule := fun s start =>
  if s.byte? start = some '0'.toUInt8 ∧ s.byte? (start + 1) = some mark.toUInt8 then
    digits s (start + 2)
  else none

def hexadecimal : Rule := radixNumeral 'x'
def octal : Rule := radixNumeral 'o'
def binary : Rule := radixNumeral 'b'

/-- A numeral in any base. The marked forms come first, because the zero that
they begin with is a numeral as well. -/
def numeral : Rule := fun s start =>
  [hexadecimal, octal, binary, digits].findSome? fun rule => rule s start

/-- A string literal that has no closing quote. -/
structure Unterminated where
  /-- where the opening quote is -/
  start : Nat
deriving DecidableEq, Repr

/-- What is wrong, in a sentence. -/
def Unterminated.message (u : Unterminated) : String :=
  "unterminated string literal starting at byte " ++ toString u.start

/-- The offset after the first quote at or after `pos` that no backslash takes
away. A backslash takes the byte after it, whatever that is. -/
def closingQuote (s : Source) (pos : Nat) : Option Nat :=
  match h : s.byte? pos with
  | none => none
  | some b =>
      if b = '"'.toUInt8 then some (pos + 1)
      else if b = '\\'.toUInt8 then closingQuote s (pos + 2)
      else closingQuote s (pos + 1)
termination_by s.size - pos
decreasing_by all_goals
  have := Source.lt_size_of_byte? h
  omega

/-- A text in double quotes. There is no match without an opening quote, and an
error without a closing one. -/
def string (s : Source) (start : Nat) : Except Unterminated (Option Nat) :=
  if s.byte? start = some '"'.toUInt8 then
    match closingQuote s (start + 1) with
    | some stop => .ok (some stop)
    | none => .error ⟨start⟩
  else .ok none

/-- A text in double quotes, where one that is not finished is no match. -/
def closedString : Rule := fun s start =>
  match string s start with
  | .ok stop? => stop?
  | .error _ => none

/-- What is between the quotes of a string literal from `start` to `stop`. -/
def contents? (s : Source) (start stop : Nat) : Option String :=
  if start + 2 ≤ stop then s.slice? (start + 1) (stop - 1) else none

end Literal

end WeLang
