import WeLang.Node
import WeLang.Parse.Error

/-!
# Drafts

A draft is a node that is not finished. While the parts of a value are read,
names, keys and child nodes gather in it, each sort in a stack of its own; in the
end they are moved into a payload, and the draft becomes a node.

Reading is speculative, so a draft can be taken back. A `Draft.Mark` holds the
types and the payload as they are, and of each stack only the height. Going back
to a mark puts the first back and cuts the second off. That undoes exactly what
was done in between, as long as nothing in between took anything from below the
mark.
-/

namespace WeLang

/-- A node under construction. -/
structure Draft where
  selfType : Option Ty := none
  inType : Option Ty := none
  outType : Option Ty := none
  payload : Option (Payload Node) := none
  /-- child nodes, in the order in which they were read -/
  children : Array Node := #[]
  /-- the parts of a chain of names -/
  names : Array String := #[]
  /-- keys whose values are still to come, each with its span -/
  keys : Array (String × Span) := #[]
  /-- the chains that a module uses -/
  usings : Array (List String) := #[]
  /-- entries with different keys, in the order in which they were read -/
  entries : Array (String × Node) := #[]
deriving DecidableEq, Inhabited

/-- A change of a draft that may be refused. What it did before it was refused
stays done. -/
abbrev Edit := EStateM ParseError Draft Unit

namespace Draft

/-- A draft of which nothing is known. -/
def blank : Draft := {}

/-! ## Marks -/

/-- What it takes to go back to a draft. -/
structure Mark where
  selfType : Option Ty
  inType : Option Ty
  outType : Option Ty
  payload : Option (Payload Node)
  children : Nat
  names : Nat
  keys : Nat
  usings : Nat
  entries : Nat
deriving DecidableEq

/-- The mark of a draft as it is. -/
def mark (d : Draft) : Mark where
  selfType := d.selfType
  inType := d.inType
  outType := d.outType
  payload := d.payload
  children := d.children.size
  names := d.names.size
  keys := d.keys.size
  usings := d.usings.size
  entries := d.entries.size

/-- A draft without what was added since a mark was set. -/
def restore (d : Draft) (m : Mark) : Draft where
  selfType := m.selfType
  inType := m.inType
  outType := m.outType
  payload := m.payload
  children := d.children.take m.children
  names := d.names.take m.names
  keys := d.keys.take m.keys
  usings := d.usings.take m.usings
  entries := d.entries.take m.entries

@[simp] theorem restore_mark (d : Draft) : d.restore d.mark = d := by
  simp [restore, mark]

/-! ## Entries -/

/-- Whether a draft has an entry under a key. -/
def hasEntry (d : Draft) (key : String) : Bool :=
  d.entries.any (·.1 = key)

/-- One more entry, if its key is new. The key's span is what an error points
at. -/
def insertEntry (key : String) (keySpan : Span) (value : Node) : Edit := fun d =>
  if d.hasEntry key then
    .error { cause := .duplicateKey key, span := keySpan } d
  else .ok () { d with entries := d.entries.push (key, value) }

/-- The entries as a table. -/
def entryTable (d : Draft) : Table Node :=
  Table.ofRows d.entries.toList

/-! ## The finished node -/

/-- A draft that knows what it is. -/
def complete (d : Draft) (payload : Payload Node) (selfType : Ty) : Draft :=
  { d with payload := some payload, selfType := some selfType }

/-- A draft as a node. One that never got to know what it is becomes a place
holder of unknown type. -/
def finish (d : Draft) (span : Span) : Node where
  selfType := d.selfType.getD .absent
  inType := d.inType
  outType := d.outType
  span := span
  payload := d.payload.getD .discard

end Draft

end WeLang
