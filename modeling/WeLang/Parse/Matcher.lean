import WeLang.Parse.Draft
import WeLang.Parse.Progress

/-!
# Matchers

A matcher is asked at an offset, with the draft of the node that is being built
and the progress of the parse. It answers with the offset after what it matched,
or with a failure, and in either case with the draft and the progress as they are
then.

The matchers here are built from smaller ones. Three rules govern them all.

* One after the other (`andThen`) takes nothing back: what the first contributed
  to the draft stays there when the second misses.
* Whatever tries something that may miss (`orElse`, `optional`, `many`,
  `separated`) sets a mark before and goes back to it after a miss. Only the
  draft goes back; progress does not.
* An error is passed on by everyone, and nothing is undone.
-/

namespace WeLang

/-- What a matcher works on. -/
structure State where
  draft : Draft
  progress : Progress
deriving DecidableEq, Inhabited

/-- What becomes of a matcher: an offset or a failure, with the state after it. -/
abbrev Step := EStateM.Result Failure State Nat

/-- A matcher, from an offset and a state to what becomes of it. -/
abbrev Matcher := Nat → State → Step

namespace State

/-- The state in which a parse begins. -/
def initial : State :=
  ⟨.blank, .none⟩

/-- A state whose draft has gone back to a mark. -/
def restore (s : State) (m : Draft.Mark) : State :=
  { s with draft := s.draft.restore m }

/-- A match up to `stop` that changes the draft. A change that is refused is an
error. -/
def settle (s : State) (edit : Edit) (stop : Nat) : Step :=
  match edit s.draft with
  | .ok _ draft => .ok stop { s with draft }
  | .error e draft => .error (.fatal e) { s with draft }

end State

namespace Matcher

/-! ## Tokens and the end -/

/-- A token of a kind, of which the draft takes note. -/
def token (cx : Context) (kind : TokenKind) (note : Lexeme → Edit) : Matcher := fun start s =>
  match cx.lex kind start s.progress with
  | .ok lexeme progress => { s with progress }.settle (note lexeme) lexeme.span.stop
  | .error f progress => .error f { s with progress }

/-- A token of a kind, of which nothing else is wanted. -/
def expect (cx : Context) (kind : TokenKind) : Matcher :=
  token cx kind fun _ => pure ()

/-- The end of the source. -/
def endOfInput (cx : Context) : Matcher := fun start s =>
  match cx.expectEnd start s.progress with
  | .ok stop progress => .ok stop { s with progress }
  | .error f progress => .error f { s with progress }

/-! ## Sequence and choice -/

/-- Nothing, which is always there. -/
def done : Matcher := fun start s => .ok start s

/-- What is never there. -/
def never : Matcher := fun start s => .error (.miss (.nothing start)) s

/-- One after the other. A failure of either is a failure of both from where the
first started. -/
def andThen (p q : Matcher) : Matcher := fun start s =>
  match p start s with
  | .error f s => .error (f.rebase start) s
  | .ok next s =>
      match q next s with
      | .error f s => .error (f.rebase start) s
      | .ok stop s => .ok stop s

/-- The first, or else the second in the same place. If both miss, what is known
is what they say together. -/
def orElse (p q : Matcher) : Matcher := fun start s =>
  match p start s with
  | .ok stop s => .ok stop s
  | .error (.fatal e) s => .error (.fatal e) s
  | .error (.miss m) after =>
      match q start (after.restore s.draft.mark) with
      | .ok stop s => .ok stop s
      | .error (.fatal e) s => .error (.fatal e) s
      | .error (.miss n) s => .error (.miss (((Miss.nothing start).merge m).merge n)) s

/-- The matcher if it is there, else nothing. -/
def optional (p : Matcher) : Matcher := fun start s =>
  match p start s with
  | .ok stop s => .ok stop s
  | .error (.fatal e) s => .error (.fatal e) s
  | .error (.miss _) after => .ok start (after.restore s.draft.mark)

/-- The matcher, after which one is again where it started. -/
def ahead (p : Matcher) : Matcher := fun start s =>
  match p start s with
  | .ok _ s => .ok start s
  | .error f s => .error f s

/-! ## Repetition -/

/-- How a round of a repetition ends. -/
inductive Round where
  /-- with another round from an offset -/
  | again (next : Nat) (s : State)
  /-- with the repetition, at an offset -/
  | stop (stop : Nat) (s : State)
  /-- with an error -/
  | fail (e : ParseError) (s : State)

/-- Rounds until one of them is the last. A round that gets nowhere, or has
nothing left in front of it, is not followed by another. -/
def rounds (size : Nat) (round : Nat → State → Round) (pos : Nat) (s : State) : Step :=
  match round pos s with
  | .stop stop s => .ok stop s
  | .fail e s => .error (.fatal e) s
  | .again next s =>
      if pos < next ∧ pos < size then rounds size round next s else .ok next s
termination_by size - pos
decreasing_by omega

/-- What every round keeps, the whole repetition keeps. -/
theorem rounds_induction {size : Nat} {round : Nat → State → Round}
    {motive : Nat → State → Step → Prop}
    (stop : ∀ {pos s stop s'}, round pos s = .stop stop s' → motive pos s (.ok stop s'))
    (fail : ∀ {pos s e s'}, round pos s = .fail e s' → motive pos s (.error (.fatal e) s'))
    (last : ∀ {pos s next s'}, round pos s = .again next s' → ¬ (pos < next ∧ pos < size) →
      motive pos s (.ok next s'))
    (again : ∀ {pos s next s'}, round pos s = .again next s' → pos < next → pos < size →
      motive next s' (rounds size round next s') → motive pos s (rounds size round next s'))
    (pos : Nat) (s : State) : motive pos s (rounds size round pos s) := by
  fun_induction rounds size round pos s with
  | case1 pos s _ _ h => exact stop h
  | case2 pos s _ _ h => exact fail h
  | case3 pos s _ _ h hlt ih => exact again h hlt.1 hlt.2 ih
  | case4 pos s _ _ h hlt => exact last h hlt

/-- A round of `many`: the matcher once more, unless it misses or gets nowhere. -/
def manyRound (p : Matcher) (pos : Nat) (s : State) : Round :=
  match p pos s with
  | .ok next after =>
      if pos < next then .again next after else .stop pos (after.restore s.draft.mark)
  | .error (.miss _) after => .stop pos (after.restore s.draft.mark)
  | .error (.fatal e) after => .fail e after

/-- The matcher as often as it is there. -/
def many (cx : Context) (p : Matcher) : Matcher :=
  rounds cx.source.size (manyRound p)

/-- A round of `separated`: a separator and an item. A separator without an item
after it is the last thing that is matched. -/
def separatedRound (cx : Context) (item : Matcher) (separator : TokenKind) (pos : Nat)
    (s : State) : Round :=
  match expect cx separator pos s with
  | .error (.miss _) s => .stop pos s
  | .error (.fatal e) s => .fail e s
  | .ok next s =>
      match item next s with
      | .ok stop s => .again stop s
      | .error (.miss _) after => .stop next (after.restore s.draft.mark)
      | .error (.fatal e) s => .fail e s

/-- Items with separators between, and perhaps one after the last; or nothing. -/
def separated (cx : Context) (item : Matcher) (separator : TokenKind) : Matcher := fun start s =>
  match item start s with
  | .ok next s => rounds cx.source.size (separatedRound cx item separator) next s
  | .error (.miss _) after => .ok start (after.restore s.draft.mark)
  | .error (.fatal e) s => .error (.fatal e) s

/-! ## Nodes -/

/-- A node of its own, one level further in: the matcher works on a blank draft,
and the draft becomes a node that starts at the first byte that is not blank. -/
def build (cx : Context) (p : Matcher) (start : Nat) (progress : Progress) :
    EStateM.Result Failure Progress (Node × Nat) :=
  match cx.enter start progress with
  | .error f progress => .error f progress
  | .ok _ progress =>
      match p start ⟨.blank, progress⟩ with
      | .error f s => .error f s.progress.leave
      | .ok stop s =>
          let span : Span := ⟨min (cx.source.skipBlanks start) stop, stop⟩
          .ok (s.draft.finish span, stop) s.progress.leave

/-- A child node, which is then attached to the draft. -/
def child (cx : Context) (p : Matcher) (attach : Node → Edit) : Matcher := fun start s =>
  match build cx p start s.progress with
  | .error f progress => .error f { s with progress }
  | .ok (node, stop) progress => { s with progress }.settle (attach node) stop

/-- The matcher, after which the draft is changed in the light of what it was
before. -/
def andEdit (p : Matcher) (edit : Draft → Edit) : Matcher := fun start s =>
  match p start s with
  | .ok stop after => after.settle (edit s.draft) stop
  | .error f after => .error f after

end Matcher

end WeLang
