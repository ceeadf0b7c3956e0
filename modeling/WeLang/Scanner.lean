import WeLang.Lexis.NextToken
import WeLang.Token

/-!
# The scanner

A scanner walks through a source from one token to the next and keeps count of
lines and columns as it goes. It never goes back, and there are three places
from which it never goes on: the end, a character at which no token starts, and
a string that is not closed. Asked again there, it gives the same answer again.

`tokenize` is a scanner run to the end, for which such a character is an error.
-/

namespace WeLang

/-- A place after some text, if the text starts at a given place. Behind the greatest
number of a line or a column comes zero. -/
def Location.after (place : Location) (text : List Char) : Location :=
  text.foldl (fun place c =>
    if c = '\n' then ⟨place.line + 1, 1⟩ else ⟨place.line, place.column + 1⟩) place

/-- A scanner at some point of its way through a source. -/
structure Scanner where
  /-- how far it has come -/
  position : Nat
  /-- where `position` is -/
  location : Location
  /-- the last token it found -/
  token : Option Token
  /-- the reserved words it has read as names, in order -/
  collisions : Array KeywordCollision
deriving DecidableEq, Inhabited, Repr

namespace Scanner

/-- A scanner before its first step. -/
def initial : Scanner :=
  ⟨0, .origin, none, #[]⟩

/-- Whether nothing but blanks is left. -/
def isAtEnd (sc : Scanner) (s : Source) : Bool :=
  s.isSpent sc.position

/-- A scanner that has gone on to `target`; it does not go back. -/
def moveTo (sc : Scanner) (s : Source) (target : Nat) : Scanner :=
  if target ≤ sc.position then sc
  else
    let passed := (s.slice? sc.position target).getD ""
    { sc with position := target, location := sc.location.after passed.toList }

/-- A scanner that has noted the collision of the token it just found, unless it
is the one it noted last. -/
def noteCollision (sc : Scanner) (s : Source) (token : Token) : Scanner :=
  match KeywordCollision.ofToken? token.kind s token.span with
  | none => sc
  | some collision =>
      if sc.collisions.back?.any (·.span = collision.span) then sc
      else { sc with collisions := sc.collisions.push collision }

/-- The next token, if there is one, becomes the last one found. A string that
is not closed is an error. -/
def advance (sc : Scanner) (s : Source) : EStateM.Result LexError Scanner (Option Token) :=
  let start := s.skipBlanks sc.position
  let sc := sc.moveTo s start
  if s.size ≤ start then .ok none sc
  else
    match matchToken s start with
    | .error e => .error (e.withLocation sc.location) sc
    | .ok (some (kind, stop)) =>
        let span : Span := ⟨start, stop⟩
        let token : Token := ⟨kind, kind.textOf s span, span, sc.location⟩
        .ok (some token) ({ sc.noteCollision s token with token }.moveTo s stop)
    | .ok none =>
        let c := (s.char? start).getD '\x00'
        let token : Token := ⟨.unknown, c.toString, ⟨start, start + c.utf8Size⟩, sc.location⟩
        .ok (some token) { sc with token }

/-- The tokens from here to the end. Only a step that moves the scanner is
followed by another one. -/
def remaining (sc : Scanner) (s : Source) : Except LexError (List Token) :=
  match sc.advance s with
  | .error e _ => .error e
  | .ok none _ => .ok []
  | .ok (some token) next =>
      if token.kind = .unknown then
        let c := token.text.toList.head?.getD '\x00'
        .error ⟨.unknownSymbol c, token.span, some token.location⟩
      else if sc.position < next.position ∧ sc.position < s.size then
        (next.remaining s).map (token :: ·)
      else .ok [token]
termination_by s.size - sc.position
decreasing_by omega

end Scanner

/-- A source as the list of its tokens. -/
def tokenize (s : Source) : Except LexError (List Token) :=
  Scanner.initial.remaining s

end WeLang
