import WeLang.Table

/-!
# Structural types

A type is a claim, which is what something says it is, and a table of
requirements, which are the types it needs from whatever takes its place. A
type without requirements is a leaf and stands for nothing but its claim.

Claims are free text. The ones that productions assign on their own are listed
under `Claim`; a chain of names claims itself.
-/

namespace WeLang

/-- A claim with named requirements. The rows of `requirements` are those of a
`Table`. -/
structure Ty where
  claim : String
  requirements : List (String × Ty)
deriving Inhabited

/-! ## Claims and requirements of the language -/

namespace Claim

/-- Nothing is known: the element of an empty list, an edge that is not given. -/
def absent : String := "None"
def integer : String := "Integer"
def string : String := "String"
def list : String := "List"
def map : String := "Map"
def function : String := "Function"
def typeAlias : String := "Alias"
def typeIdentity : String := "Identity"
def discard : String := "Discard"
def module : String := "Module"

/-- The claims that productions assign. -/
def all : List String :=
  [absent, integer, string, list, map, function, typeAlias, typeIdentity, discard, module]

end Claim

namespace Requirement

/-- The elements of a list. -/
def item : String := "item"
/-- What a function takes. -/
def input : String := "in"
/-- What a function gives. -/
def output : String := "out"
/-- What an alias or an identity wraps. -/
def target : String := "target"

/-- The names of requirements that productions assign. -/
def all : List String :=
  [item, input, output, target]

end Requirement

namespace Ty

/-- The type with a claim and no requirements. -/
def leaf (claim : String) : Ty :=
  ⟨claim, []⟩

/-- The leaf that claims nothing is known. -/
def absent : Ty :=
  leaf Claim.absent

/-- A type with one more requirement, or with another type for one it has. -/
def require (t : Ty) (name : String) (requirement : Ty) : Ty :=
  { t with requirements := Table.insert name requirement t.requirements }

/-- The type required under a name. -/
def requirement? (t : Ty) (name : String) : Option Ty :=
  Table.get? t.requirements name

/-- The names of the requirements, in order. -/
def requirementNames (t : Ty) : List String :=
  Table.names t.requirements

/-- Whether a type requires nothing. -/
def isLeaf (t : Ty) : Bool :=
  t.requirements.isEmpty

/-- Whether a type is the leaf that claims nothing is known. -/
def isAbsent (t : Ty) : Bool :=
  t.claim == Claim.absent && t.isLeaf

/-! ## Equality -/

mutual

/-- Types are equal if their claims and all their requirements are. -/
def decEq : (t u : Ty) → Decidable (t = u)
  | ⟨claim, rows⟩, ⟨claim', rows'⟩ =>
      have := decEqRows rows rows'
      decidable_of_iff (claim = claim' ∧ rows = rows') (by simp)

/-- Requirements are compared row by row. -/
def decEqRows : (rows rows' : List (String × Ty)) → Decidable (rows = rows')
  | [], [] => isTrue rfl
  | [], _ :: _ => isFalse (by simp)
  | _ :: _, [] => isFalse (by simp)
  | (name, t) :: rows, (name', t') :: rows' =>
      have := decEq t t'
      have := decEqRows rows rows'
      decidable_of_iff ((name = name' ∧ t = t') ∧ rows = rows') (by simp)

end

instance : DecidableEq Ty := decEq

/-! ## Text -/

mutual

/-- The claim, and after it the requirements in braces if there are any. -/
def render : Ty → String
  | ⟨claim, []⟩ => claim
  | ⟨claim, (name, t) :: rows⟩ =>
      claim ++ " \x7b " ++ name ++ ": " ++ render t ++ renderMore rows ++ " \x7d"

/-- Further requirements, each after a comma. -/
def renderMore : List (String × Ty) → String
  | [] => ""
  | (name, t) :: rows => ", " ++ name ++ ": " ++ render t ++ renderMore rows

end

instance : ToString Ty := ⟨render⟩

/-- A type as a developer's listing shows it. -/
def inspect (t : Ty) : String :=
  "Type(" ++ t.render ++ ")"

@[simp] theorem render_leaf (claim : String) : (leaf claim).render = claim := by
  simp [leaf, render]

theorem requirement?_require_self (t : Ty) (name : String) (u : Ty) :
    (t.require name u).requirement? name = some u :=
  Table.get?_insert_self name u t.requirements

theorem requirement?_require_of_ne {name other : String} (h : other ≠ name) (t u : Ty) :
    (t.require name u).requirement? other = t.requirement? other :=
  Table.get?_insert_of_ne h u t.requirements

end Ty

end WeLang
