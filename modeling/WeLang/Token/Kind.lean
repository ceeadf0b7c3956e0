/-!
# Kinds of tokens

The language has sixteen punctuation marks of one byte each, four reserved
words, three classes of literals, and a kind for whatever is none of these. A
kind says nothing about the text of a token, except where there is only one
text it could have: that is its `lexeme?`.

Every kind has a place in one fixed list, `TokenKind.all`, and the place is its
`index`. The index is what the sets of expected kinds are made of, and the
order of the list is the order in which such a set is read out.
-/

namespace WeLang

/-- A punctuation mark. -/
inductive Symbol where
  | listStart
  | listEnd
  | mapStart
  | mapEnd
  | functionStart
  | functionEnd
  | typeParameterStart
  | typeParameterEnd
  | typeAlias
  | typeIdentity
  | clauseSeparator
  | listSeparator
  | identifierSeparator
  | define
  | macroMarker
  | discard
deriving DecidableEq, Inhabited, Repr

namespace Symbol

/-- Every mark, in the order of their indices. -/
def all : List Symbol :=
  [listStart, listEnd, mapStart, mapEnd, functionStart, functionEnd, typeParameterStart,
    typeParameterEnd, typeAlias, typeIdentity, clauseSeparator, listSeparator,
    identifierSeparator, define, macroMarker, discard]

/-- Every mark, in the order in which a scanner tries them. The marks are
different bytes, so the order decides nothing. -/
def scanOrder : List Symbol :=
  [listStart, listEnd, mapStart, mapEnd, functionStart, functionEnd, typeParameterStart,
    typeParameterEnd, typeAlias, typeIdentity, clauseSeparator, listSeparator,
    define, macroMarker, discard, identifierSeparator]

/-- The character a mark is written as. All of them are ASCII. -/
def char : Symbol → Char
  | listStart => '['
  | listEnd => ']'
  | mapStart => '{'
  | mapEnd => '}'
  | functionStart => '('
  | functionEnd => ')'
  | typeParameterStart => '<'
  | typeParameterEnd => '>'
  | typeAlias => '\''
  | typeIdentity => '*'
  | clauseSeparator => ';'
  | listSeparator => ','
  | identifierSeparator => '.'
  | define => ':'
  | macroMarker => '@'
  | discard => '_'

/-- The byte a mark is written as. -/
def byte (m : Symbol) : UInt8 :=
  m.char.toUInt8

theorem mem_all (m : Symbol) : m ∈ all := by
  cases m <;> decide

theorem mem_scanOrder (m : Symbol) : m ∈ scanOrder := by
  cases m <;> decide

theorem byte_injective {m n : Symbol} (h : m.byte = n.byte) : m = n := by
  revert h
  cases m <;> cases n <;> decide

end Symbol

/-- A reserved word. -/
inductive Keyword where
  | useWord
  | aliasWord
  | identityWord
  | fnWord
deriving DecidableEq, Inhabited, Repr

namespace Keyword

/-- Every reserved word, in the order of their indices. -/
def all : List Keyword :=
  [useWord, aliasWord, identityWord, fnWord]

/-- How a reserved word is written. -/
def spelling : Keyword → String
  | useWord => "use"
  | aliasWord => "alias"
  | identityWord => "identity"
  | fnWord => "fn"

/-- The reserved word with a given spelling. -/
def ofSpelling? (text : String) : Option Keyword :=
  all.find? fun w => w.spelling == text

theorem mem_all (w : Keyword) : w ∈ all := by
  cases w <;> decide

theorem spelling_injective {v w : Keyword} (h : v.spelling = w.spelling) : v = w := by
  revert h
  cases v <;> cases w <;> decide

theorem ofSpelling?_eq_some {text : String} {w : Keyword} :
    ofSpelling? text = some w ↔ text = w.spelling := by
  constructor
  · intro h
    have := List.find?_some h
    exact (eq_of_beq this).symm
  · rintro rfl
    cases w <;> decide

end Keyword

/-- What a token is. -/
inductive TokenKind where
  /-- a punctuation mark -/
  | symbol (mark : Symbol)
  /-- a reserved word -/
  | keyword (word : Keyword)
  /-- a decimal, hexadecimal, octal or binary numeral -/
  | integer
  /-- a name -/
  | identifier
  /-- a text in double quotes -/
  | string
  /-- a character at which no token starts -/
  | unknown
deriving DecidableEq, Inhabited, Repr

namespace TokenKind

/-- Every kind, in the order of their indices. -/
def all : List TokenKind :=
  Symbol.all.map symbol ++ Keyword.all.map keyword ++ [integer, identifier, string, unknown]

/-- How many kinds there are. -/
abbrev count : Nat := 24

/-- The place of a kind in `all`. -/
def index (k : TokenKind) : Nat :=
  all.idxOf k

theorem length_all : all.length = count := by
  decide

theorem mem_all (k : TokenKind) : k ∈ all := by
  cases k with
  | symbol m => cases m <;> decide
  | keyword w => cases w <;> decide
  | integer | identifier | string | unknown => decide

theorem index_lt (k : TokenKind) : k.index < count :=
  length_all ▸ List.idxOf_lt_length_iff.2 (mem_all k)

theorem getElem?_index (k : TokenKind) : all[k.index]? = some k := by
  rw [List.getElem?_eq_getElem (length_all ▸ k.index_lt)]
  exact congrArg some (List.getElem_idxOf _)

theorem index_injective {j k : TokenKind} (h : j.index = k.index) : j = k :=
  Option.some.inj (getElem?_index j ▸ h ▸ getElem?_index k)

/-- The kind in a given place of `all`. -/
def ofIndex (i : Fin count) : TokenKind :=
  all[i]

@[simp] theorem index_ofIndex (i : Fin count) : (ofIndex i).index = i := by
  revert i
  decide

/-- Whether a kind is a punctuation mark. -/
def isSymbol : TokenKind → Bool
  | symbol _ => true
  | _ => false

/-- The only text a token of this kind can have, if there is only one. -/
def lexeme? : TokenKind → Option String
  | symbol m => some m.char.toString
  | keyword w => some w.spelling
  | _ => none

/-- The name of a kind in listings that are meant for a developer. -/
def name : TokenKind → String
  | symbol .listStart => "ListStart"
  | symbol .listEnd => "ListEnd"
  | symbol .mapStart => "MapStart"
  | symbol .mapEnd => "MapEnd"
  | symbol .functionStart => "FunctionStart"
  | symbol .functionEnd => "FunctionEnd"
  | symbol .typeParameterStart => "TypeParameterStart"
  | symbol .typeParameterEnd => "TypeParameterEnd"
  | symbol .typeAlias => "TypeAlias"
  | symbol .typeIdentity => "TypeIdentity"
  | symbol .clauseSeparator => "ClauseSeparator"
  | symbol .listSeparator => "ListSeparator"
  | symbol .identifierSeparator => "IdentifierSeparator"
  | symbol .define => "Define"
  | symbol .macroMarker => "MacroSymbol"
  | symbol .discard => "DiscardSymbol"
  | keyword .useWord => "Use"
  | keyword .aliasWord => "Alias"
  | keyword .identityWord => "Identity"
  | keyword .fnWord => "Fn"
  | integer => "Integer"
  | identifier => "Identifier"
  | string => "String"
  | unknown => "Unknown"

/-- What a kind is, in the words of a message to the author of a source. -/
def description : TokenKind → String
  | symbol .listStart => "list start"
  | symbol .listEnd => "list end"
  | symbol .mapStart => "map start"
  | symbol .mapEnd => "map end"
  | symbol .functionStart => "function start"
  | symbol .functionEnd => "function end"
  | symbol .typeParameterStart => "type parameter start"
  | symbol .typeParameterEnd => "type parameter end"
  | symbol .typeAlias => "type alias marker"
  | symbol .typeIdentity => "type identity marker"
  | symbol .clauseSeparator => "clause separator"
  | symbol .listSeparator => "list separator"
  | symbol .identifierSeparator => "identifier separator"
  | symbol .define => "define marker"
  | symbol .macroMarker => "macro marker"
  | symbol .discard => "discard marker"
  | keyword w => "keyword `" ++ w.spelling ++ "`"
  | integer => "integer literal"
  | identifier => "identifier"
  | string => "string literal"
  | unknown => "unknown symbol"

/-- How a message names a kind: a mark as it is written, anything else by its
description. -/
def render : TokenKind → String
  | symbol m => "`" ++ m.char.toString ++ "`"
  | k => k.description

instance : ToString TokenKind := ⟨render⟩

end TokenKind

end WeLang
