import WeLang.Span

/-!
# Diagnostics

What the library finds wrong with a source it hands over as a value: a code to
search for, how bad it is, a sentence, the span it is about, the line and column
where that span starts if somebody worked them out, and notes. Showing it to a
reader is left to the caller, who may print `render` and be done.
-/

namespace WeLang

/-- A place in a source as people count: lines and columns from one, columns in
characters. Either is a number of 32 bits. -/
structure Location where
  line : UInt32
  column : UInt32
deriving DecidableEq, Inhabited, Repr

namespace Location

/-- The place where every source begins. -/
def origin : Location :=
  ⟨1, 1⟩

/-- Line and column with a colon between. -/
def render (place : Location) : String :=
  toString place.line ++ ":" ++ toString place.column

instance : ToString Location := ⟨render⟩

end Location

namespace Diagnostic

/-- How bad it is. -/
inductive Severity where
  | error
  | warning
deriving DecidableEq, Inhabited, Repr

/-- The word for a severity. -/
def Severity.render : Severity → String
  | error => "error"
  | warning => "warning"

/-- What it is, among everything the library can find. -/
inductive Code where
  | unterminatedString
  | unknownSymbol
  | unexpectedToken
  | unterminatedLiteral
  | unknownSymbolInValue
  | duplicateKey
  | integerOverflow
  | nestingTooDeep
  | stepLimitExceeded
  | invalidDigit
  | keywordCollision
deriving DecidableEq, Inhabited, Repr

namespace Code

/-- Every code. -/
def all : List Code :=
  [unterminatedString, unknownSymbol, unexpectedToken, unterminatedLiteral,
    unknownSymbolInValue, duplicateKey, integerOverflow, nestingTooDeep, stepLimitExceeded,
    invalidDigit, keywordCollision]

/-- The code as it is printed. The letter tells errors from warnings, the first
digit is 0 for what the scanner finds and 1 for what the parser finds. -/
def render : Code → String
  | unterminatedString => "E0001"
  | unknownSymbol => "E0002"
  | unexpectedToken => "E1001"
  | unterminatedLiteral => "E1002"
  | unknownSymbolInValue => "E1003"
  | duplicateKey => "E1004"
  | integerOverflow => "E1005"
  | nestingTooDeep => "E1006"
  | stepLimitExceeded => "E1007"
  | invalidDigit => "E1008"
  | keywordCollision => "W0001"

theorem mem_all (c : Code) : c ∈ all := by
  cases c <;> decide

end Code

end Diagnostic

/-- Something found in a source. -/
structure Diagnostic where
  code : Diagnostic.Code
  severity : Diagnostic.Severity
  message : String
  span : Span
  /-- Where `span` starts, if that is known. -/
  location : Option Location
  notes : List String
deriving DecidableEq, Inhabited, Repr

namespace Diagnostic

/-- A diagnostic that says nothing yet. -/
def blank (severity : Severity) (code : Code) (span : Span) : Diagnostic :=
  ⟨code, severity, "", span, none, []⟩

/-- The same with another message. -/
def withMessage (d : Diagnostic) (message : String) : Diagnostic :=
  { d with message }

/-- The same with its place worked out. -/
def withLocation (d : Diagnostic) (place : Location) : Diagnostic :=
  { d with location := some place }

/-- The same with one more note at the end. -/
def withNote (d : Diagnostic) (note : String) : Diagnostic :=
  { d with notes := d.notes ++ [note] }

/-- One line: severity, code, message, and the place if it is known. -/
def render (d : Diagnostic) : String :=
  d.severity.render ++ " [" ++ d.code.render ++ "]: " ++ d.message ++
    match d.location with
    | some place => " at " ++ place.render
    | none => ""

instance : ToString Diagnostic := ⟨render⟩

end Diagnostic

end WeLang
