import WeLang.Parse.Matcher

/-!
# Patterns

A pattern is a matcher written down: a tree whose leaves are tokens and whose
inner nodes are the ways to put matchers together. What a pattern matches is
given by `Pattern.run`, which reads every constructor as the matcher of the same
name.

A grammar is recursive and a tree is not, so a pattern may refer to others by
name. What a name stands for is up to whoever runs the pattern; `ν` is the type
of the names.

That patterns are data is what makes it possible to say something about all of
them: whatever holds of the leaves and is kept by each constructor holds of every
pattern that will ever be written.
-/

namespace WeLang

/-- How something in a source looks, and what the draft takes from it. -/
inductive Pattern (ν : Type) where
  /-- a token of a kind, of which the draft takes note -/
  | token (kind : TokenKind) (note : Lexeme → Edit)
  /-- the end of the source -/
  | endOfInput
  /-- nothing -/
  | done
  /-- what is never there -/
  | never
  /-- one after the other -/
  | andThen (p q : Pattern ν)
  /-- one or else the other -/
  | orElse (p q : Pattern ν)
  /-- once or not at all -/
  | optional (p : Pattern ν)
  /-- as often as it is there -/
  | many (p : Pattern ν)
  /-- items with separators between -/
  | separated (item : Pattern ν) (separator : TokenKind)
  /-- something that is there and is left there -/
  | ahead (p : Pattern ν)
  /-- a child node that is attached to the draft -/
  | child (p : Pattern ν) (attach : Node → Edit)
  /-- something after which the draft is changed -/
  | andEdit (p : Pattern ν) (edit : Draft → Edit)
  /-- what a name stands for -/
  | ref (name : ν)

namespace Pattern

variable {ν : Type}

/-- A token of a kind, of which nothing else is wanted. -/
def expect (kind : TokenKind) : Pattern ν :=
  .token kind fun _ => pure ()

/-- A mark of punctuation. -/
def mark (m : Symbol) : Pattern ν :=
  .expect (.symbol m)

/-- A reserved word. -/
def word (w : Keyword) : Pattern ν :=
  .expect (.keyword w)

/-- Patterns one after the other. -/
def sequence (ps : List (Pattern ν)) : Pattern ν :=
  ps.foldr andThen done

/-- The first pattern of a list that is there. -/
def firstOf (ps : List (Pattern ν)) : Pattern ν :=
  ps.foldr orElse never

/-- A change of the draft for which nothing has to be there. -/
def edit (e : Edit) : Pattern ν :=
  .andEdit .done fun _ => e

/-- The matcher that a pattern stands for, when names stand for what `env` says. -/
def run (cx : Context) (env : ν → Matcher) : Pattern ν → Nat → State → Step
  | .token kind note, start, s => Matcher.token cx kind note start s
  | .endOfInput, start, s => Matcher.endOfInput cx start s
  | .done, start, s => Matcher.done start s
  | .never, start, s => Matcher.never start s
  | .andThen p q, start, s => Matcher.andThen (p.run cx env) (q.run cx env) start s
  | .orElse p q, start, s => Matcher.orElse (p.run cx env) (q.run cx env) start s
  | .optional p, start, s => Matcher.optional (p.run cx env) start s
  | .many p, start, s => Matcher.many cx (p.run cx env) start s
  | .separated item separator, start, s =>
      Matcher.separated cx (item.run cx env) separator start s
  | .ahead p, start, s => Matcher.ahead (p.run cx env) start s
  | .child p attach, start, s => Matcher.child cx (p.run cx env) attach start s
  | .andEdit p edit, start, s => Matcher.andEdit (p.run cx env) edit start s
  | .ref name, start, s => env name start s

end Pattern

end WeLang
