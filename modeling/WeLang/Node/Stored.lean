import WeLang.Node

/-!
# Stored trees

A tree that is to be kept between runs is turned into plain data: numbers,
texts, sequences and objects, which any data format can write down. A structure
becomes an object with a member for each field, a table an object with a member
for each row, and a payload either the name of its kind alone or an object with
that name as its only member.

Writing and reading stand side by side, one function per type. What is read may
come in any order: a structure looks its fields up by name, takes none of them
twice, and does without those that may be missing and those that it does not
know; a table takes the rows one after the other.
-/

namespace WeLang

/-- Plain data. -/
inductive Datum where
  | null
  | number (n : Nat)
  | text (s : String)
  | sequence (items : List Datum)
  | object (members : List (String × Datum))
deriving Inhabited, Repr

namespace Datum

/-- A sequence of texts. -/
def ofTexts (texts : List String) : Datum :=
  .sequence (texts.map .text)

/-- The text that a datum is. -/
def text? : Datum → Option String
  | .text s => some s
  | _ => none

/-- The number that a datum is. -/
def number? : Datum → Option Nat
  | .number n => some n
  | _ => none

/-- The items of a sequence. -/
def items? : Datum → Option (List Datum)
  | .sequence items => some items
  | _ => none

/-- The texts of a sequence of texts. -/
def texts? (d : Datum) : Option (List String) :=
  d.items?.bind fun items => items.mapM text?

/-- The members of an object. -/
def members? : Datum → Option (List (String × Datum))
  | .object members => some members
  | _ => none

/-- The number that a datum is, if it fits into 64 bits. -/
def word? : Datum → Option UInt64
  | .number n => if n < UInt64.size then some (UInt64.ofNat n) else none
  | _ => none

/-! ### Fields -/

/-- What the members of an object have under a name. A name that is there twice is
as bad as one that is missing. -/
def field? (members : List (String × Datum)) (name : String) : Option Datum :=
  match members.filter (·.1 = name) with
  | [member] => some member.2
  | _ => none

/-- What the members of an object have under a name that may be missing. -/
def fieldOrNull? (members : List (String × Datum)) (name : String) : Option Datum :=
  match members.filter (·.1 = name) with
  | [] => some .null
  | [member] => some member.2
  | _ => none

/-- A field is smaller than the object it is a field of. -/
theorem sizeOf_field? {members : List (String × Datum)} {name : String} {d : Datum}
    (h : field? members name = some d) : sizeOf d < sizeOf members := by
  rw [field?] at h
  split at h
  · next member hfilter =>
      cases h
      have hmem : member ∈ members :=
        (List.mem_filter.1 (hfilter ▸ List.mem_singleton_self member)).1
      have hlt := List.sizeOf_lt_of_mem hmem
      obtain ⟨name, d⟩ := member
      simp only [Prod.mk.sizeOf_spec] at hlt ⊢
      omega
  · cases h

/-- A field that is a sequence. -/
def itemsField? (members : List (String × Datum)) (name : String) : Option (List Datum) :=
  (field? members name).bind items?

/-- A field that is an object. -/
def membersField? (members : List (String × Datum)) (name : String) :
    Option (List (String × Datum)) :=
  (field? members name).bind members?

theorem sizeOf_itemsField? {members : List (String × Datum)} {name : String}
    {items : List Datum} (h : itemsField? members name = some items) :
    sizeOf items < sizeOf members := by
  obtain ⟨d, hd, hitems⟩ := Option.bind_eq_some_iff.1 h
  have hlt := sizeOf_field? hd
  cases d with
  | sequence items' =>
      cases hitems
      simp only [sequence.sizeOf_spec] at hlt
      omega
  | null | number _ | text _ | object _ => cases hitems

theorem sizeOf_membersField? {members members' : List (String × Datum)} {name : String}
    (h : membersField? members name = some members') : sizeOf members' < sizeOf members := by
  obtain ⟨d, hd, hmembers⟩ := Option.bind_eq_some_iff.1 h
  have hlt := sizeOf_field? hd
  cases d with
  | object members'' =>
      cases hmembers
      simp only [object.sizeOf_spec] at hlt
      omega
  | null | number _ | text _ | sequence _ => cases hmembers

end Datum

/-! ## Spans and types -/

namespace Span

/-- A span as data. -/
def toDatum (span : Span) : Datum :=
  .object [("start", .number span.start), ("end", .number span.stop)]

/-- The span that is stored as some data. -/
def ofDatum? : Datum → Option Span
  | .object members => do
      let start ← (Datum.field? members "start").bind Datum.number?
      let stop ← (Datum.field? members "end").bind Datum.number?
      return ⟨start, stop⟩
  | _ => none

end Span

namespace Ty

mutual

/-- A type as data. -/
def toDatum : Ty → Datum
  | ⟨claim, rows⟩ => .object [("claim", .text claim), ("requirements", .object (rowsToData rows))]

/-- Requirements as the members of an object. -/
def rowsToData : List (String × Ty) → List (String × Datum)
  | [] => []
  | (name, t) :: rows => (name, toDatum t) :: rowsToData rows

end

mutual

/-- The type that is stored as some data. -/
def ofDatum? : Datum → Option Ty
  | .object members => do
      let claim ← (Datum.field? members "claim").bind Datum.text?
      let rows ← (Datum.membersField? members "requirements").pbind fun rows h =>
        have := Datum.sizeOf_membersField? h
        rowsOfData? rows
      return ⟨claim, Table.ofRows rows⟩
  | _ => none
termination_by d => sizeOf d

/-- The requirements that are stored as the members of an object. -/
def rowsOfData? : List (String × Datum) → Option (List (String × Ty))
  | [] => some []
  | (name, d) :: members => do
      let t ← ofDatum? d
      let rows ← rowsOfData? members
      return (name, t) :: rows
termination_by members => sizeOf members

end

/-- A type that may be missing as data. -/
def toDatumOrNull : Option Ty → Datum
  | none => .null
  | some t => t.toDatum

/-- The type that may be missing, from its data. -/
def ofDatumOrNull? : Datum → Option (Option Ty)
  | .null => some none
  | d => (ofDatum? d).map some

end Ty

/-! ## Nodes -/

namespace Node

mutual

/-- A node as data. -/
def toDatum : Node → Datum
  | ⟨selfType, inType, outType, span, payload⟩ =>
      .object [("self_type", selfType.toDatum), ("in_type", Ty.toDatumOrNull inType),
        ("out_type", Ty.toDatumOrNull outType), ("span", span.toDatum),
        ("kind", payloadToDatum payload)]

/-- A payload as data. -/
def payloadToDatum : Payload Node → Datum
  | .module usings entries =>
      .object [("Module", .object [("usings", .sequence (usings.map Datum.ofTexts)),
        ("entries", .object (rowsToData entries))])]
  | .list items => .object [("List", .sequence (listToData items))]
  | .map entries => .object [("Map", .object (rowsToData entries))]
  | .function steps => .object [("Function", .object [("steps", .sequence (listToData steps))])]
  | .typeAlias target => .object [("TypeAlias", toDatum target)]
  | .typeIdentity target => .object [("TypeIdentity", toDatum target)]
  | .discard => .text "Discard"
  | .integer value => .object [("Integer", .number value.toNat)]
  | .identifierChain path => .object [("IdentifierChain", Datum.ofTexts path)]
  | .string text => .object [("String", .text text)]

/-- Nodes as the items of a sequence. -/
def listToData : List Node → List Datum
  | [] => []
  | n :: ns => toDatum n :: listToData ns

/-- Entries as the members of an object. -/
def rowsToData : List (String × Node) → List (String × Datum)
  | [] => []
  | (key, n) :: rows => (key, toDatum n) :: rowsToData rows

end

mutual

/-- The node that is stored as some data. -/
def ofDatum? : Datum → Option Node
  | .object members => do
      let selfType ← (Datum.field? members "self_type").bind Ty.ofDatum?
      let inType ← (Datum.fieldOrNull? members "in_type").bind Ty.ofDatumOrNull?
      let outType ← (Datum.fieldOrNull? members "out_type").bind Ty.ofDatumOrNull?
      let span ← (Datum.field? members "span").bind Span.ofDatum?
      let payload ← (Datum.field? members "kind").pbind fun d h =>
        have := Datum.sizeOf_field? h
        payloadOfDatum? d
      return ⟨selfType, inType, outType, span, payload⟩
  | _ => none
termination_by d => sizeOf d

/-- The payload that is stored as some data. -/
def payloadOfDatum? : Datum → Option (Payload Node)
  | .text name => if name = "Discard" then some .discard else none
  | .object [(name, d)] => payloadOfTagged? name d
  | _ => none
termination_by d => sizeOf d

/-- The payload of a kind that is stored as some data. -/
def payloadOfTagged? : String → Datum → Option (Payload Node)
  | "Module", .object members => do
      let usings ← (Datum.itemsField? members "usings").bind (·.mapM Datum.texts?)
      let entries ← (Datum.membersField? members "entries").pbind fun rows h =>
        have := Datum.sizeOf_membersField? h
        rowsOfData? rows
      return .module usings (Table.ofRows entries)
  | "List", .sequence items => (listOfData? items).map .list
  | "Map", .object members => (rowsOfData? members).map fun rows => .map (Table.ofRows rows)
  | "Function", .object members => do
      let steps ← (Datum.itemsField? members "steps").pbind fun steps h =>
        have := Datum.sizeOf_itemsField? h
        listOfData? steps
      return .function steps
  | "TypeAlias", d => (ofDatum? d).map .typeAlias
  | "TypeIdentity", d => (ofDatum? d).map .typeIdentity
  | "Discard", .null => some .discard
  | "Integer", d => d.word?.map .integer
  | "IdentifierChain", d => d.texts?.map .identifierChain
  | "String", d => d.text?.map .string
  | _, _ => none
termination_by _ d => sizeOf d + 1

/-- The nodes that are stored as the items of a sequence. -/
def listOfData? : List Datum → Option (List Node)
  | [] => some []
  | d :: ds => do
      let n ← ofDatum? d
      let ns ← listOfData? ds
      return n :: ns
termination_by items => sizeOf items

/-- The entries that are stored as the members of an object. -/
def rowsOfData? : List (String × Datum) → Option (List (String × Node))
  | [] => some []
  | (key, d) :: members => do
      let n ← ofDatum? d
      let rows ← rowsOfData? members
      return (key, n) :: rows
termination_by members => sizeOf members

end

end Node

end WeLang
