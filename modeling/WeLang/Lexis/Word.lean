import WeLang.Token.Kind
import WeLang.Lexis.ByteClass

/-!
# Reserved words

A reserved word counts only as a whole word, and a word is bounded on both
sides. If a name byte follows, what stands there is some longer name and the
reserved word is simply absent. If a name byte comes before, as in `123use`, the
word is glued to it: it is not matched, but it was most likely meant, and the
scanner and the parser both warn about it.
-/

namespace WeLang

/-- How a word stands at an offset. -/
inductive WordMatch where
  /-- as a word of its own, up to an offset -/
  | whole (stop : Nat)
  /-- with a name byte directly before it -/
  | glued
  /-- not at all, or as the beginning of a longer name -/
  | absent
deriving DecidableEq, Inhabited, Repr

/-- The bytes that a text is written as. -/
def bytesOf (text : String) : List UInt8 :=
  text.toByteArray.data.toList

namespace Source

/-- Whether a name byte stands directly before an offset. -/
def nameByteBefore (s : Source) (pos : Nat) : Bool :=
  0 < pos && s.byteIn ByteClass.isNameByte (pos - 1)

/-- How `word` stands at `start`. -/
def wordAt (s : Source) (start : Nat) (word : String) : WordMatch :=
  let stop := start + word.utf8ByteSize
  if !s.hasBytes (bytesOf word) start then .absent
  else if s.byteIn ByteClass.isNameByte stop then .absent
  else if s.nameByteBefore start then .glued
  else .whole stop

/-- The offset after `word`, if it stands at `start` as a word of its own. -/
def wholeWord? (s : Source) (start : Nat) (word : String) : Option Nat :=
  match s.wordAt start word with
  | .whole stop => some stop
  | .glued | .absent => none

/-- The reserved word that stands at `start` glued to a name byte before it. -/
def gluedKeyword? (s : Source) (start : Nat) : Option Keyword :=
  Keyword.all.find? fun w => s.wordAt start w.spelling == .glued

end Source

end WeLang
