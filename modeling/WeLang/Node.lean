import WeLang.Ty
import WeLang.Span

/-!
# Syntax trees

A node carries what every node has, its types and its span, and a payload that
says what it is. Payloads are generic in what they hold, so that the questions
that do not look into the children (`name`, `children`, `entry?`) are asked of
any payload, and a node is the case where the children are nodes again.

Children are finite in number and each is smaller than its parent. Everything
recursive on trees rests on these two facts, `Node.sizeOf_child` and the
induction principle `Node.inductionOn` that follows from it.
-/

namespace WeLang

/-- What a node is, with children of type `α`. The rows of `module` and `map`
are those of a `Table`. -/
inductive Payload (α : Type) where
  /-- a whole source: the chains it uses and the entries it defines -/
  | module (usings : List (List String)) (entries : List (String × α))
  /-- values in brackets, in the order in which they are written -/
  | list (items : List α)
  /-- named values in braces -/
  | map (entries : List (String × α))
  /-- values in parentheses, in the order in which they run -/
  | function (steps : List α)
  /-- a value behind an alias marker -/
  | typeAlias (target : α)
  /-- a value behind an identity marker -/
  | typeIdentity (target : α)
  /-- the place holder -/
  | discard
  /-- a number below 2 to the power of 64 -/
  | integer (value : UInt64)
  /-- names with dots between -/
  | identifierChain (path : List String)
  /-- a text, with its escapes left as they were written -/
  | string (text : String)
deriving DecidableEq, Inhabited, Repr

namespace Payload

variable {α : Type}

/-- What a payload is called. -/
def name : Payload α → String
  | module .. => "module"
  | list _ => "list"
  | map _ => "map"
  | function _ => "function"
  | typeAlias _ => "type alias"
  | typeIdentity _ => "type identity"
  | discard => "discard"
  | integer _ => "integer"
  | identifierChain _ => "identifier chain"
  | string _ => "string"

/-- The names of all payloads, in the order of the constructors. -/
def allNames : List String :=
  ["module", "list", "map", "function", "type alias", "type identity", "discard", "integer",
    "identifier chain", "string"]

/-- What a payload holds, in its own order where it has one and in the order of
the names where it has not. -/
def children : Payload α → List α
  | module _ entries | map entries => Table.values entries
  | list items => items
  | function steps => steps
  | typeAlias target | typeIdentity target => [target]
  | discard | integer _ | identifierChain _ | string _ => []

/-- What a module or a map has under a name. -/
def entry? (key : String) : Payload α → Option α
  | module _ entries | map entries => Table.get? entries key
  | _ => none

/-- The same payload with every child changed. -/
def mapChildren {β : Type} (f : α → β) : Payload α → Payload β
  | module usings entries => module usings (Table.mapValues f entries)
  | list items => list (items.map f)
  | map entries => map (Table.mapValues f entries)
  | function steps => function (steps.map f)
  | typeAlias target => typeAlias (f target)
  | typeIdentity target => typeIdentity (f target)
  | discard => discard
  | integer value => integer value
  | identifierChain path => identifierChain path
  | string text => string text

/-- What is left of a payload when its children are forgotten. -/
def shape (p : Payload α) : Payload Unit :=
  p.mapChildren fun _ => ()

@[simp] theorem name_mapChildren {β : Type} (f : α → β) (p : Payload α) :
    (p.mapChildren f).name = p.name := by
  cases p <;> rfl

@[simp] theorem children_mapChildren {β : Type} (f : α → β) (p : Payload α) :
    (p.mapChildren f).children = p.children.map f := by
  cases p <;> simp [mapChildren, children, Table.values, Table.mapValues]

/-- A payload is its shape filled with its children. -/
theorem eq_iff (p q : Payload α) : p = q ↔ p.shape = q.shape ∧ p.children = q.children := by
  constructor
  · rintro rfl
    exact ⟨rfl, rfl⟩
  · rintro ⟨hs, hc⟩
    cases p <;> cases q <;>
      simp_all [shape, mapChildren, children, Table.eq_iff_names_values]

/-- Two payloads can be compared once their children are. -/
def decEqOf (p q : Payload α) (h : Decidable (p.children = q.children)) : Decidable (p = q) :=
  decidable_of_iff (p.shape = q.shape ∧ p.children = q.children) (eq_iff p q).symm

end Payload

/-- A piece of a syntax tree. -/
structure Node where
  /-- the type of the value that the node stands for -/
  selfType : Ty
  /-- what the value takes, if it is of a kind that takes something -/
  inType : Option Ty
  /-- what the value gives, if it is of a kind that gives something -/
  outType : Option Ty
  span : Span
  payload : Payload Node

namespace Node

instance : Inhabited Node := ⟨⟨default, none, none, default, .discard⟩⟩

/-- The nodes directly below. -/
def children (n : Node) : List Node :=
  n.payload.children

/-- The entry of a module or a map under a name. -/
def entry? (n : Node) (key : String) : Option Node :=
  n.payload.entry? key

/-- Every child is smaller than its parent. -/
theorem sizeOf_child {c n : Node} (h : c ∈ n.children) : sizeOf c < sizeOf n := by
  obtain ⟨selfType, inType, outType, span, payload⟩ := n
  have rows {entries : List (String × Node)} (h : c ∈ Table.values entries) :
      sizeOf c < sizeOf entries := by
    obtain ⟨row, hrow, rfl⟩ := List.mem_map.1 h
    have := List.sizeOf_lt_of_mem hrow
    cases row
    simp only [Prod.mk.sizeOf_spec] at this ⊢
    omega
  have below : sizeOf c < sizeOf payload := by
    cases payload with
    | «module» usings entries | map entries =>
        have := rows h
        simp
        omega
    | list items | function items =>
        have h : c ∈ items := h
        have := List.sizeOf_lt_of_mem h
        simp
        omega
    | typeAlias target | typeIdentity target =>
        have h : c = target := List.mem_singleton.1 h
        subst h
        simp
    | discard | integer _ | identifierChain _ | string _ => exact nomatch h
  simp only [Node.mk.sizeOf_spec]
  omega

/-- What holds of a node whenever it holds of its children holds of all nodes. -/
theorem inductionOn {motive : Node → Prop}
    (step : ∀ n : Node, (∀ c ∈ n.children, motive c) → motive n) (n : Node) : motive n :=
  step n fun c h =>
    have := sizeOf_child h
    inductionOn step c
termination_by sizeOf n

/-- How many levels of nodes there are; a node without children is one level. -/
def height (n : Node) : Nat :=
  (n.children.attach.map fun ⟨c, h⟩ =>
    have := sizeOf_child h
    c.height).foldl max 0 + 1
termination_by sizeOf n

/-- The node and everything below it, parents before their children. -/
def subtree (n : Node) : List Node :=
  n :: n.children.attach.flatMap fun ⟨c, h⟩ =>
    have := sizeOf_child h
    c.subtree
termination_by sizeOf n

theorem height_eq (n : Node) : n.height = (n.children.map height).foldl max 0 + 1 := by
  rw [height]
  simp

theorem subtree_eq (n : Node) : n.subtree = n :: n.children.flatMap subtree := by
  rw [subtree]
  simp [List.flatMap_def]

/-- How often each payload occurs in a tree, by name, without those that do not
occur. -/
def census (n : Node) : List (String × Nat) :=
  let names := n.subtree.map fun m => m.payload.name
  (Payload.allNames.map fun name => (name, names.count name)).filter fun row => row.2 ≠ 0

/-! ## Equality -/

/-- No node at all is compared with a list. -/
def decEqNone : (ys : List Node) → Decidable ([] = ys)
  | [] => isTrue rfl
  | _ :: _ => isFalse (by simp)

mutual

/-- Nodes are equal if all their parts are. -/
def decEq : (m n : Node) → Decidable (m = n)
  | ⟨t, i, o, s, p⟩, ⟨t', i', o', s', p'⟩ =>
      have := decEqPayload p p'
      decidable_of_iff (t = t' ∧ i = i' ∧ o = o' ∧ s = s' ∧ p = p') (by simp)

/-- Payloads are equal if they have one shape and hold equal children. -/
def decEqPayload : (p q : Payload Node) → Decidable (p = q)
  | .module us es, q => Payload.decEqOf (.module us es) q (decEqValues es q.children)
  | .list xs, q => Payload.decEqOf (.list xs) q (decEqList xs q.children)
  | .map es, q => Payload.decEqOf (.map es) q (decEqValues es q.children)
  | .function xs, q => Payload.decEqOf (.function xs) q (decEqList xs q.children)
  | .typeAlias x, q => Payload.decEqOf (.typeAlias x) q (decEqOnly x q.children)
  | .typeIdentity x, q => Payload.decEqOf (.typeIdentity x) q (decEqOnly x q.children)
  | .discard, q => Payload.decEqOf .discard q (decEqNone q.children)
  | .integer v, q => Payload.decEqOf (.integer v) q (decEqNone q.children)
  | .identifierChain us, q => Payload.decEqOf (.identifierChain us) q (decEqNone q.children)
  | .string u, q => Payload.decEqOf (.string u) q (decEqNone q.children)

/-- Lists of nodes are compared item by item. -/
def decEqList : (xs ys : List Node) → Decidable (xs = ys)
  | [], [] => isTrue rfl
  | [], _ :: _ => isFalse (by simp)
  | _ :: _, [] => isFalse (by simp)
  | x :: xs, y :: ys =>
      have := decEq x y
      have := decEqList xs ys
      decidable_of_iff (x = y ∧ xs = ys) (by simp)

/-- A node is compared with the only one of a list. -/
def decEqOnly (x : Node) : (ys : List Node) → Decidable ([x] = ys)
  | [] => isFalse (by simp)
  | [y] =>
      have := decEq x y
      decidable_of_iff (x = y) (by simp)
  | _ :: _ :: _ => isFalse (by simp)

/-- The values of a table are compared one by one. -/
def decEqValues : (rows : List (String × Node)) → (ys : List Node) →
    Decidable (Table.values rows = ys)
  | [], [] => isTrue rfl
  | [], _ :: _ => isFalse (by simp [Table.values])
  | _ :: _, [] => isFalse (by simp [Table.values])
  | (_, x) :: rows, y :: ys =>
      have := decEq x y
      have := decEqValues rows ys
      decidable_of_iff (x = y ∧ Table.values rows = ys) (by simp [Table.values])

end

instance : DecidableEq Node := decEq

end Node

end WeLang
