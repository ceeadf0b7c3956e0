import WeLang.Lexis.Word
import WeLang.Lexis.Literal
import WeLang.Span

/-!
# The rule of each kind

Every kind of token but `unknown` has a rule, and whoever looks for a token of
some kind goes through the same table. That is why the scanner, which asks all
the rules at an offset, and the parser, which asks for one kind at a time, can
never disagree about what a token is.
-/

namespace WeLang

/-- One byte of punctuation. -/
def byteRule (b : UInt8) : Rule := fun s start =>
  if s.byte? start = some b then some (start + 1) else none

/-- A mark, wherever its byte stands. -/
def Symbol.rule (m : Symbol) : Rule :=
  byteRule m.byte

/-- A reserved word, where it stands as a word of its own. -/
def Keyword.rule (w : Keyword) : Rule := fun s start =>
  s.wholeWord? start w.spelling

/-- A name that is not a reserved word. A reserved word that is glued to what
comes before it is no reserved word there, and so it is a name. -/
def nameRule : Rule := fun s start => do
  let stop ← Literal.name s start
  match (s.slice? start stop).bind Keyword.ofSpelling? with
  | none => some stop
  | some w => if s.wordAt start w.spelling = .glued then some stop else none

namespace TokenKind

/-- The rule that recognises tokens of a kind. -/
def rule? : TokenKind → Option Rule
  | symbol m => some m.rule
  | keyword w => some w.rule
  | integer => some Literal.numeral
  | identifier => some nameRule
  | string => some Literal.closedString
  | unknown => none

/-- The offset after the token of a kind that starts exactly at `start`. A
string literal that is not finished is an error, and no other kind has one. -/
def matchAt (k : TokenKind) (s : Source) (start : Nat) :
    Except Literal.Unterminated (Option Nat) :=
  match k with
  | string => Literal.string s start
  | k => .ok (k.rule?.bind fun rule => rule s start)

/-- The kinds in the order in which the scanner asks for them. Strings come
last, because only they can fail. -/
def scanOrder : List TokenKind :=
  Symbol.scanOrder.map symbol ++ Keyword.all.map keyword ++ [identifier, integer, string]

/-- The text of a token: what it covers, without the quotes of a string. -/
def textOf (k : TokenKind) (s : Source) (span : Span) : String :=
  match k with
  | string => (Literal.contents? s span.start span.stop).getD ""
  | _ => (s.slice? span.start span.stop).getD ""

end TokenKind

end WeLang
