import WeLang.Lexis.Fault
import WeLang.Parse.Failure
import WeLang.Parse.Limits

/-!
# The progress of a parse

The parser has no list of tokens. Whoever wants a token of some kind asks for it
at an offset, and the blanks before it are skipped there and then. What such
attempts leave behind, whether or not they lead anywhere, is the progress of the
parse: how many there were, how deep the values are nested at the moment, which
names were reserved words in the wrong place, and the furthest miss. None of it
is taken back when a pattern is given up.

A miss is noted from the offset at which it happened, not from where the blanks
before it began, so that the furthest miss is about a place and not about who
asked.
-/

namespace WeLang

/-- What stays the same throughout a parse. -/
structure Context where
  source : Source
  limits : Limits := .standard
deriving DecidableEq, Inhabited, Repr

/-- What a parse has come to so far. -/
structure Progress where
  /-- how often a token was asked for -/
  attempts : Nat := 0
  /-- how many nodes are under construction around the present one -/
  depth : Nat := 0
  /-- the reserved words that were read as names, in the order in which they were
  first read -/
  warnings : Array KeywordCollision := #[]
  /-- what is known about the furthest miss -/
  furthest : Option Miss := none
deriving DecidableEq, Inhabited, Repr

/-- A token that was asked for and is there. -/
structure Lexeme where
  kind : TokenKind
  text : String
  span : Span
deriving DecidableEq, Inhabited, Repr

namespace Progress

/-- The progress of a parse that has not begun. -/
def none : Progress := {}

/-- The greatest number of steps that is told apart from greater ones. -/
def greatestSteps : Nat := UInt32.size - 1

/-- How many steps were spent, which is one for each attempt at a token. -/
def steps (p : Progress) : Nat :=
  min p.attempts greatestSteps

/-- One more attempt. -/
def spend (p : Progress) : Progress :=
  { p with attempts := p.attempts + 1 }

/-- One more miss. -/
def noteMiss (p : Progress) (offset : Nat) (expected : TokenSet) : Progress :=
  let miss : Miss := ⟨offset, offset, expected⟩
  { p with furthest := some (match p.furthest with
      | .none => miss
      | some seen => seen.merge miss) }

/-- The collision of a token, unless the same stretch was noted before. -/
def noteCollision (p : Progress) (cx : Context) (kind : TokenKind) (span : Span) : Progress :=
  match KeywordCollision.ofToken? kind cx.source span with
  | .none => p
  | some collision =>
      if p.warnings.any (·.span = collision.span) then p
      else { p with warnings := p.warnings.push collision }

/-- One level out. -/
def leave (p : Progress) : Progress :=
  { p with depth := p.depth - 1 }

end Progress

namespace Context

/-- The token of a kind that starts at the first byte after `start` that is not
blank. -/
def lex (cx : Context) (kind : TokenKind) (start : Nat) (p : Progress) :
    EStateM.Result Failure Progress Lexeme :=
  let p := p.spend
  match cx.limits.exceeded? p.steps with
  | some limit =>
      .error (.fatal { cause := .stepLimitExceeded limit,
                       span := .point (min start cx.source.size) }) p
  | none =>
      let pos := cx.source.skipBlanks start
      match kind.matchAt cx.source pos with
      | .error u =>
          .error (.fatal { cause := .unterminatedLiteral,
                           span := ⟨u.start, cx.source.size⟩ }) p
      | .ok none =>
          let expected := TokenSet.single kind
          .error (.miss ⟨start, pos, expected⟩) (p.noteMiss pos expected)
      | .ok (some stop) =>
          let span : Span := ⟨pos, stop⟩
          .ok ⟨kind, kind.textOf cx.source span, span⟩ (p.noteCollision cx kind span)

/-- The end of the source, if only blanks are left. -/
def expectEnd (cx : Context) (start : Nat) (p : Progress) :
    EStateM.Result Failure Progress Nat :=
  let pos := cx.source.skipBlanks start
  if pos < cx.source.size then .error (.miss ⟨start, pos, ∅⟩) (p.noteMiss pos ∅)
  else .ok pos p

/-- The error of a value that is nested too deep. -/
def tooDeep (cx : Context) (start : Nat) : ParseError :=
  { cause := .nestingTooDeep cx.limits.maxDepth, span := .point (cx.source.skipBlanks start) }

/-- One level in, if there is one left. -/
def enter (cx : Context) (start : Nat) (p : Progress) : EStateM.Result Failure Progress Unit :=
  if p.depth < cx.limits.maxDepth then .ok () { p with depth := p.depth + 1 }
  else .error (.fatal (cx.tooDeep start)) p

end Context

end WeLang
