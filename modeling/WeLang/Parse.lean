import WeLang.Lexis.NextToken
import WeLang.Parse.Grammar

/-!
# Parsing

A source is parsed as a module or as a single value. The result is a tree and
the reserved words that were read as names, or one error.

If no way to read the source was found, the error is made from the furthest miss:
it names the token that stands there and what should have stood there instead. If
there is no token at all at that place, that is what is wrong, whatever the
grammar wanted.
-/

namespace WeLang

/-- A tree, and what was suspicious on the way to it. -/
structure Parsed where
  node : Node
  warnings : List KeywordCollision
deriving DecidableEq

namespace Parse

/-- What comes of a parse, with the progress at its end. -/
def outcome (goal : Goal) (cx : Context) : EStateM.Result Failure Progress (Node × Nat) :=
  Matcher.build cx (goal.matcher cx) 0 .none

/-- What is wrong where a miss got furthest. -/
def errorAt (s : Source) (m : Miss) : ParseError :=
  match peek s m.offset with
  | .error e => { cause := .unterminatedLiteral, span := e.span }
  | .ok none => { cause := .unexpectedToken m.expected none, span := .point s.size }
  | .ok (some (.unknown, span)) =>
      { cause := .unknownSymbol ((s.char? span.start).getD '\x00'), span }
  | .ok (some (found, span)) => { cause := .unexpectedToken m.expected (some found), span }

/-- The error that a failure of a whole parse amounts to. -/
def errorOf (s : Source) (p : Progress) : Failure → ParseError
  | .fatal e => e
  | .miss m => errorAt s (match p.furthest with
      | none => m
      | some furthest => m.merge furthest)

end Parse

/-- The tree of a source that is read as a goal says, or the error that there is
none. -/
def parse (goal : Goal) (s : Source) (limits : Limits := .standard) :
    Except ParseError Parsed :=
  match Parse.outcome goal ⟨s, limits⟩ with
  | .ok (node, _) p => .ok ⟨node, p.warnings.toList⟩
  | .error f p => .error ((Parse.errorOf s p f).locate s)

/-- A source as a module. -/
def parseModule (s : Source) (limits : Limits := .standard) : Except ParseError Parsed :=
  parse .module s limits

/-- A source as a single value. -/
def parseValue (s : Source) (limits : Limits := .standard) : Except ParseError Parsed :=
  parse .value s limits

end WeLang
