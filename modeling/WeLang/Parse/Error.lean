import WeLang.Token.KindSet
import WeLang.LineTable

/-!
# Errors of a parse

A parse ends in at most one error. It names a cause, and the stretch of the
source that the cause is about; line and column are added when the parse is over
and the error is final.
-/

namespace WeLang

/-- Why a source is not what it was parsed as. -/
inductive ParseError.Cause where
  /-- Something else should have come: any of `expected`, or the end of the
  source if that is empty. What came is `none` at the end of the source. -/
  | unexpectedToken (expected : TokenSet) (found : Option TokenKind)
  /-- A string has no closing quote. -/
  | unterminatedLiteral
  /-- No token starts with this character. -/
  | unknownSymbol (symbol : Char)
  /-- A map or a module defines a name twice. -/
  | duplicateKey (key : String)
  /-- A numeral denotes a number of more than 64 bits. -/
  | integerOverflow (text : String)
  /-- A numeral has a digit that its base does not have. -/
  | invalidDigit (text : String) (radix : Nat)
  /-- Values are nested deeper than the limit. -/
  | nestingTooDeep (limit : Nat)
  /-- More attempts at a token were made than the limit. -/
  | stepLimitExceeded (limit : Nat)
deriving DecidableEq, Inhabited, Repr

/-- A cause and the stretch of the source it concerns. -/
structure ParseError where
  cause : ParseError.Cause
  span : Span
  /-- Where `span` starts, once that is worked out. -/
  location : Option Location := none
deriving DecidableEq, Inhabited, Repr

namespace ParseError

/-- What should have come, in words. -/
def describeExpected (expected : TokenSet) : String :=
  if expected.isEmpty then "end of input" else expected.render

/-- What came, in words. -/
def describeFound : Option TokenKind → String
  | none => "end of input"
  | some k => k.render

/-- A cause as a sentence. -/
def Cause.message : Cause → String
  | unexpectedToken expected found =>
      "expected " ++ describeExpected expected ++ ", found " ++ describeFound found
  | unterminatedLiteral => "unterminated string literal"
  | unknownSymbol c => "unknown symbol `" ++ c.toString ++ "`"
  | duplicateKey key => "duplicate key `" ++ key ++ "`"
  | integerOverflow text => "integer literal `" ++ text ++ "` does not fit in 64 bits"
  | invalidDigit text radix =>
      "invalid digit for base " ++ toString radix ++ " in `" ++ text ++ "`"
  | nestingTooDeep limit => "values nested deeper than " ++ toString limit ++ " levels"
  | stepLimitExceeded limit => "parse exceeded its budget of " ++ toString limit ++ " steps"

/-- The code that a cause is reported under. -/
def Cause.code : Cause → Diagnostic.Code
  | unexpectedToken .. => .unexpectedToken
  | unterminatedLiteral => .unterminatedLiteral
  | unknownSymbol _ => .unknownSymbolInValue
  | duplicateKey _ => .duplicateKey
  | integerOverflow _ => .integerOverflow
  | invalidDigit .. => .invalidDigit
  | nestingTooDeep _ => .nestingTooDeep
  | stepLimitExceeded _ => .stepLimitExceeded

/-- What may be done about it. -/
def Cause.notes : Cause → List String
  | unterminatedLiteral => ["add a closing `\"`"]
  | duplicateKey _ => ["each key may be defined once per map or module"]
  | nestingTooDeep _ | stepLimitExceeded _ =>
      ["raise the limit in `ParseConfig` to accept larger inputs"]
  | unexpectedToken .. | unknownSymbol _ | integerOverflow _ | invalidDigit .. => []

/-- An error as a sentence. -/
def message (e : ParseError) : String :=
  e.cause.message

/-- An error with the place of its span worked out. -/
def locate (e : ParseError) (s : Source) : ParseError :=
  { e with location := some (s.locate e.span.start) }

/-- An error as something to show. -/
def toDiagnostic (e : ParseError) : Diagnostic where
  code := e.cause.code
  severity := .error
  message := e.message
  span := e.span
  location := e.location
  notes := e.cause.notes

end ParseError

end WeLang
