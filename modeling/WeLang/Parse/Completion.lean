import WeLang.Parse.Draft

/-!
# From drafts to payloads

When the last token of a value has been read, everything it is made of lies in
the draft. The functions here take it out again and say what the value is and
what type it has. The type of a value follows from the types of its parts:
a list requires what its first item is, a map requires of each key what is
defined under it, a wrapper requires what it wraps, and a function requires its
two edges.
-/

namespace WeLang

/-! ## Numerals -/

namespace Numeral

/-- The base of a numeral and its digits, without the two characters that mark
the base. -/
def radixAndDigits : List Char → Nat × List Char
  | '0' :: 'x' :: digits => (16, digits)
  | '0' :: 'o' :: digits => (8, digits)
  | '0' :: 'b' :: digits => (2, digits)
  | digits => (10, digits)

/-- What a decimal digit stands for. -/
def digit? (c : Char) : Option Nat :=
  if '0' ≤ c ∧ c ≤ '9' then some (c.toNat - '0'.toNat) else none

/-- Why a numeral has no value. -/
inductive Fault where
  | overflow
  | invalidDigit
deriving DecidableEq, Repr

/-- The number that digits denote, read from the left behind `acc`. The first
digit that does not belong to the base or takes the number to 64 bits or more
decides what is wrong; a digit that does both does not belong to the base. -/
def valueFrom (radix : Nat) (acc : Nat) : List Char → Except Fault Nat
  | [] => .ok acc
  | c :: cs =>
      match (digit? c).filter (· < radix) with
      | none => .error .invalidDigit
      | some d =>
          let next := acc * radix + d
          if next < UInt64.size then valueFrom radix next cs else .error .overflow

/-- The number that a numeral denotes, or what is wrong with it. -/
def value (text : String) : Except ParseError.Cause UInt64 :=
  let (radix, digits) := radixAndDigits text.toList
  if digits.isEmpty then .error (.invalidDigit text radix)
  else
    match valueFrom radix 0 digits with
    | .ok n => .ok (UInt64.ofNat n)
    | .error .overflow => .error (.integerOverflow text)
    | .error .invalidDigit => .error (.invalidDigit text radix)

end Numeral

namespace Draft

/-! ## Taking things out -/

/-- The child nodes, and a draft without them. -/
def takeChildren (d : Draft) : List Node × Draft :=
  (d.children.toList, { d with children := #[] })

/-- The names, and a draft without them. -/
def takeNames (d : Draft) : List String × Draft :=
  (d.names.toList, { d with names := #[] })

/-- The entries, and a draft without them. -/
def takeEntries (d : Draft) : Table Node × Draft :=
  (d.entryTable, { d with entries := #[] })

/-- A draft whose children after the first `kept` are in the opposite order. -/
def reverseChildrenFrom (d : Draft) (kept : Nat) : Draft :=
  { d with children := d.children.take kept ++ (d.children.drop kept).reverse }

/-! ## Simple values -/

/-- The place holder. -/
def completeDiscard (d : Draft) : Draft :=
  d.complete .discard (.leaf Claim.discard)

/-- A number. -/
def completeInteger (value : UInt64) (d : Draft) : Draft :=
  d.complete (.integer value) (.leaf Claim.integer)

/-- A text. -/
def completeString (text : String) (d : Draft) : Draft :=
  d.complete (.string text) (.leaf Claim.string)

/-- The names as a chain, which claims itself. -/
def completeChain (d : Draft) : Draft :=
  let (path, d) := d.takeNames
  d.complete (.identifierChain path) (.leaf (".".intercalate path))

/-! ## Values made of values -/

/-- The children as a list. -/
def completeList (d : Draft) : Draft :=
  let (items, d) := d.takeChildren
  let item := match items with
    | [] => .absent
    | first :: _ => first.selfType
  d.complete (.list items) ((Ty.leaf Claim.list).require Requirement.item item)

/-- The type that requires of every key what is defined under it. -/
def entriesType (claim : String) (entries : Table Node) : Ty :=
  ⟨claim, Table.mapValues Node.selfType entries⟩

/-- The entries as a map. -/
def completeMap (d : Draft) : Draft :=
  let (entries, d) := d.takeEntries
  d.complete (.map entries) (entriesType Claim.map entries)

/-- The entries and the chains in use as a module. -/
def completeModule (d : Draft) : Draft :=
  let (entries, d) := d.takeEntries
  { d with usings := #[] }.complete (.module d.usings.toList entries)
    (entriesType Claim.module entries)

/-- The last child behind an alias marker. -/
def completeTypeAlias (d : Draft) : Draft :=
  match d.children.back? with
  | none => d
  | some target =>
      { d with children := d.children.pop }.complete (.typeAlias target)
        ((Ty.leaf Claim.typeAlias).require Requirement.target target.selfType)

/-- The last child behind an identity marker. -/
def completeTypeIdentity (d : Draft) : Draft :=
  match d.children.back? with
  | none => d
  | some target =>
      { d with children := d.children.pop }.complete (.typeIdentity target)
        ((Ty.leaf Claim.typeIdentity).require Requirement.target target.selfType)

/-- What a sequence of steps takes: what its first step takes, which is the step
itself if it does not say. -/
def stepsInput? (steps : List Node) : Option Ty :=
  steps.head?.map fun first => first.inType.getD first.selfType

/-- What a sequence of steps gives: what its last step is. -/
def stepsOutput? (steps : List Node) : Option Ty :=
  steps.getLast?.map Node.selfType

/-- The children as the steps of a function. An edge that was declared is what it
was declared to be; one that was not follows from the steps. -/
def completeFunction (d : Draft) : Draft :=
  let (steps, d) := d.takeChildren
  let inType := d.inType.or (stepsInput? steps)
  let outType := d.outType.or (stepsOutput? steps)
  let selfType := ((Ty.leaf Claim.function).require Requirement.input (inType.getD .absent)).require
    Requirement.output (outType.getD .absent)
  { d with inType, outType }.complete (.function steps) selfType

/-- The third child with the types of the first two as its edges. -/
def completeTypeParameter (d : Draft) : Draft :=
  match d.takeChildren with
  | (input :: output :: target :: _, d) =>
      { d with inType := some input.selfType, outType := some output.selfType }.complete
        target.payload target.selfType
  | (_, d) => d

/-! ## Things to be attached -/

/-- One more child. -/
def pushChild (child : Node) : Edit :=
  modify fun d => { d with children := d.children.push child }

/-- One more name. -/
def pushName (name : String) : Edit :=
  modify fun d => { d with names := d.names.push name }

/-- One more key that waits for its value. -/
def pushKey (key : String) (span : Span) : Edit :=
  modify fun d => { d with keys := d.keys.push (key, span) }

/-- The value of the last key that waits for one. -/
def attachEntry (value : Node) : Edit := fun d =>
  let (key, span) := d.keys.back?.getD ("", value.span)
  insertEntry key span value { d with keys := d.keys.pop }

/-- A chain of names that a module uses. -/
def attachUsing (chain : Node) : Edit :=
  match chain.payload with
  | .identifierChain path => modify fun d => { d with usings := d.usings.push path }
  | _ => pure ()

/-- The number that a numeral denotes, or an error at the numeral. -/
def attachNumeral (text : String) (span : Span) : Edit :=
  match Numeral.value text with
  | .ok value => modify (completeInteger value)
  | .error cause => throw { cause, span }

end Draft

end WeLang
