import WeLang.Lexis.Rule
import WeLang.Diagnostic

/-!
# What can be wrong with a token

Two things keep a source from being cut into tokens: a character at which no
token starts, and a string that is never closed. A third thing is only
suspicious: a reserved word that is read as a name because it is glued to what
comes before it.
-/

namespace WeLang

/-- Why a source cannot be cut into tokens. -/
inductive LexError.Cause where
  | unterminatedString
  | unknownSymbol (symbol : Char)
deriving DecidableEq, Inhabited, Repr

/-- A cause and the stretch of the source it concerns. -/
structure LexError where
  cause : LexError.Cause
  span : Span
  /-- Where `span` starts, if somebody worked it out. -/
  location : Option Location
deriving DecidableEq, Inhabited, Repr

namespace LexError

/-- What is wrong, without where. -/
def Cause.message : Cause → String
  | unterminatedString => "unterminated string literal"
  | unknownSymbol c => "unknown symbol `" ++ c.toString ++ "`"

/-- The code that a cause is reported under. -/
def Cause.code : Cause → Diagnostic.Code
  | unterminatedString => .unterminatedString
  | unknownSymbol _ => .unknownSymbol

/-- What may be done about it. -/
def Cause.notes : Cause → List String
  | unterminatedString => ["add a closing `\"`"]
  | unknownSymbol _ => []

/-- What is wrong, and where. -/
def message (e : LexError) : String :=
  e.cause.message ++ " at " ++ e.span.render

/-- An error with the place of its span worked out. -/
def withLocation (e : LexError) (place : Location) : LexError :=
  { e with location := some place }

/-- An error as something to show. -/
def toDiagnostic (e : LexError) : Diagnostic where
  code := e.cause.code
  severity := .error
  message := e.cause.message
  span := e.span
  location := e.location
  notes := e.cause.notes

/-- A string that is not closed reaches to the end of its source. -/
def ofUnterminated (s : Source) (u : Literal.Unterminated) : LexError :=
  ⟨.unterminatedString, ⟨u.start, s.size⟩, none⟩

end LexError

/-- A reserved word that is read as a name. -/
structure KeywordCollision where
  span : Span
  word : Keyword
deriving DecidableEq, Inhabited, Repr

namespace KeywordCollision

/-- The collision, if there is one, of a token that was just matched. Only names
collide. -/
def ofToken? (k : TokenKind) (s : Source) (span : Span) : Option KeywordCollision :=
  match k with
  | .identifier => (s.gluedKeyword? span.start).map (⟨span, ·⟩)
  | _ => none

/-- A collision as something to show. -/
def toDiagnostic (c : KeywordCollision) : Diagnostic where
  code := .keywordCollision
  severity := .warning
  message := "possible keyword `" ++ c.word.spelling ++ "` prefixed by identifier"
  span := c.span
  location := none
  notes := ["separate the keyword from the preceding token with whitespace"]

end KeywordCollision

end WeLang
