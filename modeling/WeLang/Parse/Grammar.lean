import WeLang.Parse.Pattern
import WeLang.Parse.Completion

/-!
# The grammar

```text
module         := use-statement* entry*
use-statement  := 'use' chain
entry          := name ':' value
value          := list | map | function | type-parameter | type-alias
                | type-identity | '_' | integer | chain | string
list           := '[' (value (',' value)* ','?)? ']'
map            := '{' entry* '}'
function       := 'fn'? '(' ('<' name name '>')? clause (';' clause)* ')'
clause         := value*
type-parameter := '<' value ',' value '>' value
type-alias     := (''' | 'alias') value
type-identity  := ('*' | 'identity') value
chain          := name ('.' name)*
```

Every production is a pattern with a parameter for the values inside it. A value
inside a value is a child node, and only there does the grammar refer to itself.
So it is enough to say what `Nonterminal.value` stands for, and a number of
levels is enough to say it: with none left, a value is nested too deep. A parse
never gets to see that, because its limit on nesting is reached first.
-/

namespace WeLang

/-- What the grammar refers to by name. -/
inductive Nonterminal where
  | value
deriving DecidableEq, Inhabited, Repr

namespace Grammar

variable {ν : Type}

/-! ## Simple values -/

/-- The place holder. -/
def discard : Pattern ν :=
  .andEdit (.mark .discard) fun _ => modify Draft.completeDiscard

/-- A numeral in any base. -/
def integer : Pattern ν :=
  .token .integer fun lexeme => Draft.attachNumeral lexeme.text lexeme.span

/-- A text in quotes; its escapes are kept as they are written. -/
def string : Pattern ν :=
  .token .string fun lexeme => modify (Draft.completeString lexeme.text)

/-- One name of a chain. -/
def segment : Pattern ν :=
  .token .identifier fun lexeme => Draft.pushName lexeme.text

/-- Names with dots between. -/
def identifierChain : Pattern ν :=
  .andEdit (.sequence [segment, .many (.sequence [.mark .identifierSeparator, segment])])
    fun _ => modify Draft.completeChain

/-! ## Values made of values -/

/-- A value as a child. -/
def nested (value : Pattern ν) : Pattern ν :=
  .child value Draft.pushChild

/-- Values in brackets. A separator after the last one does no harm. -/
def list (value : Pattern ν) : Pattern ν :=
  .andEdit
    (.sequence [.mark .listStart, .separated (nested value) (.symbol .listSeparator),
      .mark .listEnd])
    fun _ => modify Draft.completeList

/-- A key and its value. -/
def entry (value : Pattern ν) : Pattern ν :=
  .sequence [.token .identifier fun lexeme => Draft.pushKey lexeme.text lexeme.span,
    .mark .define, .child value Draft.attachEntry]

/-- Entries in braces, with nothing between them. -/
def map (value : Pattern ν) : Pattern ν :=
  .andEdit (.sequence [.mark .mapStart, .many (entry value), .mark .mapEnd])
    fun _ => modify Draft.completeMap

/-- The two edges of a function, each by the name of a type. -/
def signature : Pattern ν :=
  .sequence [.mark .typeParameterStart,
    .token .identifier fun lexeme =>
      modify fun d => { d with inType := some (.leaf lexeme.text) },
    .token .identifier fun lexeme =>
      modify fun d => { d with outType := some (.leaf lexeme.text) },
    .mark .typeParameterEnd]

/-- Values that run from the last one written to the first. -/
def clause (value : Pattern ν) : Pattern ν :=
  .andEdit (.many (nested value)) fun before =>
    modify fun d => d.reverseChildrenFrom before.children.size

/-- Clauses in parentheses, which run in the order in which they are written. -/
def function (value : Pattern ν) : Pattern ν :=
  .andEdit
    (.sequence [.optional (.word .fnWord), .mark .functionStart, .optional signature,
      clause value, .many (.sequence [.mark .clauseSeparator, clause value]),
      .mark .functionEnd])
    fun _ => modify Draft.completeFunction

/-- A value behind two others that stand for its edges. -/
def typeParameter (value : Pattern ν) : Pattern ν :=
  .andEdit
    (.sequence [.mark .typeParameterStart, nested value, .mark .listSeparator, nested value,
      .mark .typeParameterEnd, nested value])
    fun _ => modify Draft.completeTypeParameter

/-- A value behind a mark or a word that means the same. -/
def wrapped (value : Pattern ν) (m : Symbol) (w : Keyword) : Pattern ν :=
  .sequence [.firstOf [.mark m, .word w], nested value]

/-- A value behind an alias marker. -/
def typeAlias (value : Pattern ν) : Pattern ν :=
  .andEdit (wrapped value .typeAlias .aliasWord) fun _ => modify Draft.completeTypeAlias

/-- A value behind an identity marker. -/
def typeIdentity (value : Pattern ν) : Pattern ν :=
  .andEdit (wrapped value .typeIdentity .identityWord) fun _ => modify Draft.completeTypeIdentity

/-- A value of any sort, which has other values inside. -/
def value (inner : Pattern ν) : Pattern ν :=
  .firstOf [list inner, map inner, function inner, typeParameter inner, typeAlias inner,
    typeIdentity inner, discard, integer, identifierChain, string]

/-! ## Whole sources -/

/-- A chain of names that the module uses. -/
def useStatement : Pattern ν :=
  .sequence [.word .useWord, .child identifierChain Draft.attachUsing]

/-- A source that uses chains and defines entries. -/
def «module» (value : Pattern ν) : Pattern ν :=
  .andEdit (.sequence [.many useStatement, .many (entry value), .endOfInput])
    fun _ => modify Draft.completeModule

/-- A source that is one value. The node ends where the value does, whatever
blanks come after it. -/
def soleValue (inner : Pattern ν) : Pattern ν :=
  .sequence [value inner, .ahead .endOfInput]

/-! ## What a value is -/

/-- A value with at most so many levels of values in it, itself included. -/
def valueWithin (cx : Context) : Nat → Nat → State → Step
  | 0, start, s => .error (.fatal (cx.tooDeep start)) s
  | levels + 1, start, s =>
      (value (.ref Nonterminal.value)).run cx (fun .value => valueWithin cx levels) start s

/-- What the names of the grammar stand for. -/
def meaning (cx : Context) : Nonterminal → Matcher
  | .value => valueWithin cx (cx.limits.maxDepth + 1)

/-- The matcher of a production. -/
def matcher (cx : Context) (production : Pattern Nonterminal → Pattern Nonterminal) : Matcher :=
  (production (.ref .value)).run cx (meaning cx)

end Grammar

/-- What a whole source is read as. -/
inductive Goal where
  /-- chains in use and entries -/
  | module
  /-- one value and nothing else -/
  | value
deriving DecidableEq, Inhabited, Repr

/-- The matcher of a whole source. -/
def Goal.matcher (goal : Goal) (cx : Context) : Matcher :=
  match goal with
  | .module => Grammar.matcher cx Grammar.module
  | .value => Grammar.matcher cx Grammar.soleValue

end WeLang
