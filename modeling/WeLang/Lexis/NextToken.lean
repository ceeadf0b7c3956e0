import WeLang.Lexis.Fault

/-!
# The token at an offset

Asked what token there is, without a kind in mind, one tries the kinds in order
and takes the first that matches. Before the first kind is tried the blanks are
skipped. A character at which nothing matches is reported as a token of kind
`unknown` that covers that one character, so that a message can name it.
-/

namespace WeLang

/-- The first of some kinds to match at `start`, and the offset after it. -/
def firstMatch (s : Source) (start : Nat) :
    List TokenKind → Except Literal.Unterminated (Option (TokenKind × Nat))
  | [] => .ok none
  | k :: ks =>
      match k.matchAt s start with
      | .error u => .error u
      | .ok (some stop) => .ok (some (k, stop))
      | .ok none => firstMatch s start ks

/-- The kind of the token that starts exactly at `start`, and the offset after
it. -/
def matchToken (s : Source) (start : Nat) : Except LexError (Option (TokenKind × Nat)) :=
  match firstMatch s start TokenKind.scanOrder with
  | .ok found => .ok found
  | .error u => .error (.ofUnterminated s u)

/-- Kind and span of the first token at or after `offset`. There is none if
nothing but blanks follows, and none inside a character. -/
def peek (s : Source) (offset : Nat) : Except LexError (Option (TokenKind × Span)) :=
  let start := s.skipBlanks offset
  match s.char? start with
  | none => .ok none
  | some c =>
      match matchToken s start with
      | .error e => .error e
      | .ok (some (kind, stop)) => .ok (some (kind, ⟨start, stop⟩))
      | .ok none => .ok (some (.unknown, ⟨start, start + c.utf8Size⟩))

/-- Kind of the first token at or after `offset`. -/
def peekKind (s : Source) (offset : Nat) : Except LexError (Option TokenKind) :=
  match peek s offset with
  | .ok found => .ok (found.map Prod.fst)
  | .error e => .error e

end WeLang
