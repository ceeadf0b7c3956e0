import WeLang.Parse.Grammar

/-!
# Trees in another place

A tree knows where everything stands, but nothing that happens to a draft depends on it.
When every span is replaced by another (`Node.relocate`), each change of a draft does to the
relocated draft what it does to the draft, and is refused for the same cause or not at all
(`Edit.Moves`). A pattern all of whose changes are of this kind is `Pattern.Natural`, and
those of the grammar are.

What the spans are replaced by is left open. They may be shifted, when a piece of a source
is read on its own; and they may all be forgotten, when sources are compared that are laid
out differently.
-/

namespace WeLang

variable {f : Span → Span}

/-- A token that stands elsewhere. -/
def Lexeme.relocate (f : Span → Span) (x : Lexeme) : Lexeme :=
  { x with span := f x.span }

/-! ## Nodes -/

namespace Node

mutual

/-- A node with other spans. -/
def relocate (f : Span → Span) : Node → Node
  | ⟨selfType, inType, outType, span, payload⟩ =>
      ⟨selfType, inType, outType, f span, relocatePayload f payload⟩

/-- The payload of such a node. -/
def relocatePayload (f : Span → Span) : Payload Node → Payload Node
  | .module usings entries => .module usings (relocateRows f entries)
  | .list items => .list (relocateList f items)
  | .map entries => .map (relocateRows f entries)
  | .function steps => .function (relocateList f steps)
  | .typeAlias target => .typeAlias (target.relocate f)
  | .typeIdentity target => .typeIdentity (target.relocate f)
  | .discard => .discard
  | .integer value => .integer value
  | .identifierChain path => .identifierChain path
  | .string text => .string text

/-- Such nodes in a list. -/
def relocateList (f : Span → Span) : List Node → List Node
  | [] => []
  | n :: ns => n.relocate f :: relocateList f ns

/-- Such nodes under names. -/
def relocateRows (f : Span → Span) : List (String × Node) → List (String × Node)
  | [] => []
  | (key, n) :: rows => (key, n.relocate f) :: relocateRows f rows

end

theorem relocateList_eq (ns : List Node) : relocateList f ns = ns.map (relocate f) := by
  induction ns with
  | nil => rfl
  | cons n ns ih => rw [relocateList, ih, List.map_cons]

theorem relocateRows_eq (rows : List (String × Node)) :
    relocateRows f rows = Table.mapValues (relocate f) rows := by
  induction rows with
  | nil => rfl
  | cons row rows ih =>
      rw [relocateRows, ih]
      rfl

theorem relocatePayload_eq (p : Payload Node) :
    relocatePayload f p = p.mapChildren (relocate f) := by
  cases p <;>
    simp only [relocatePayload, Payload.mapChildren, relocateList_eq, relocateRows_eq]

@[simp] theorem selfType_relocate (n : Node) : (n.relocate f).selfType = n.selfType := by
  cases n
  rw [relocate]

@[simp] theorem inType_relocate (n : Node) : (n.relocate f).inType = n.inType := by
  cases n
  rw [relocate]

@[simp] theorem outType_relocate (n : Node) : (n.relocate f).outType = n.outType := by
  cases n
  rw [relocate]

@[simp] theorem span_relocate (n : Node) : (n.relocate f).span = f n.span := by
  cases n
  rw [relocate]

@[simp] theorem payload_relocate (n : Node) :
    (n.relocate f).payload = n.payload.mapChildren (relocate f) := by
  cases n
  rw [relocate, relocatePayload_eq]

end Node

/-! ## Drafts -/

namespace Table

variable {α β : Type}

theorem mapValues_insert (f : α → β) (name : String) (x : α) (t : Table α) :
    (t.insert name x).mapValues f = (t.mapValues f).insert name (f x) := by
  induction t with
  | nil => rfl
  | cons row rows ih =>
      simp only [mapValues, insert, List.map_cons] at ih ⊢
      split
      · rfl
      · split
        · rfl
        · rw [List.map_cons, ih]

theorem mapValues_ofRows (f : α → β) (rows : List (String × α)) :
    (ofRows rows).mapValues f = ofRows (rows.map fun row => (row.1, f row.2)) := by
  suffices ∀ t : Table α, (rows.foldl (fun t row => t.insert row.1 row.2) t).mapValues f =
      (rows.map fun row => (row.1, f row.2)).foldl (fun t row => t.insert row.1 row.2)
        (t.mapValues f) from this []
  induction rows with
  | nil => exact fun _ => rfl
  | cons row rows ih =>
      intro t
      rw [List.foldl_cons, ih, mapValues_insert]
      rfl

end Table

namespace Draft

/-- A draft with other spans. -/
def relocate (f : Span → Span) (d : Draft) : Draft :=
  { d with payload := d.payload.map (Payload.mapChildren (Node.relocate f))
           children := d.children.map (Node.relocate f)
           keys := d.keys.map fun key => (key.1, f key.2)
           entries := d.entries.map fun entry => (entry.1, entry.2.relocate f) }

@[simp] theorem relocate_blank : blank.relocate f = blank := by
  simp [relocate, blank]

theorem relocate_restore (d e : Draft) :
    (d.restore e.mark).relocate f = (d.relocate f).restore (e.relocate f).mark := by
  simp [relocate, restore, mark]

theorem relocate_finish (d : Draft) (span : Span) :
    (d.finish span).relocate f = (d.relocate f).finish (f span) := by
  unfold finish
  rw [Node.relocate, Node.relocatePayload_eq]
  cases hp : d.payload <;> simp [relocate, hp, Payload.mapChildren]

theorem hasEntry_relocate (d : Draft) (key : String) :
    (d.relocate f).hasEntry key = d.hasEntry key := by
  simp [hasEntry, relocate]

theorem back?_keys_relocate (d : Draft) (span : Span) :
    (d.relocate f).keys.back?.getD ("", f span) =
      ((d.keys.back?.getD ("", span)).1, f (d.keys.back?.getD ("", span)).2) := by
  show (d.keys.map _).back?.getD _ = _
  rw [Array.back?_map]
  cases d.keys.back? <;> rfl

/-! ## Completions -/

theorem relocate_completeDiscard (d : Draft) :
    d.completeDiscard.relocate f = (d.relocate f).completeDiscard := rfl

theorem relocate_completeInteger (value : UInt64) (d : Draft) :
    (d.completeInteger value).relocate f = (d.relocate f).completeInteger value := rfl

theorem relocate_completeString (text : String) (d : Draft) :
    (d.completeString text).relocate f = (d.relocate f).completeString text := rfl

theorem relocate_completeChain (d : Draft) :
    d.completeChain.relocate f = (d.relocate f).completeChain := rfl

theorem relocate_completeList (d : Draft) :
    d.completeList.relocate f = (d.relocate f).completeList := by
  unfold completeList takeChildren
  cases hc : d.children.toList <;> simp [relocate, complete, Payload.mapChildren, hc]

theorem entryTable_relocate (d : Draft) :
    (d.relocate f).entryTable = Table.mapValues (Node.relocate f) d.entryTable := by
  simp [entryTable, Table.mapValues_ofRows, relocate]

theorem entriesType_relocate (claim : String) (entries : Table Node) :
    entriesType claim (Table.mapValues (Node.relocate f) entries) = entriesType claim entries := by
  simp [entriesType, Table.mapValues, Function.comp_def]

theorem relocate_completeMap (d : Draft) :
    d.completeMap.relocate f = (d.relocate f).completeMap := by
  unfold completeMap takeEntries
  simp only [entryTable_relocate, entriesType_relocate]
  simp [relocate, complete, Payload.mapChildren]

theorem relocate_completeModule (d : Draft) :
    d.completeModule.relocate f = (d.relocate f).completeModule := by
  unfold completeModule takeEntries
  simp only [entryTable_relocate, entriesType_relocate]
  simp [relocate, complete, Payload.mapChildren]

theorem relocate_completeTypeAlias (d : Draft) :
    d.completeTypeAlias.relocate f = (d.relocate f).completeTypeAlias := by
  unfold completeTypeAlias
  cases hc : d.children.back? with
  | none => simp [relocate, hc]
  | some n => simp [relocate, complete, Payload.mapChildren, hc]

theorem relocate_completeTypeIdentity (d : Draft) :
    d.completeTypeIdentity.relocate f = (d.relocate f).completeTypeIdentity := by
  unfold completeTypeIdentity
  cases hc : d.children.back? with
  | none => simp [relocate, hc]
  | some n => simp [relocate, complete, Payload.mapChildren, hc]

theorem relocate_completeFunction (d : Draft) :
    d.completeFunction.relocate f = (d.relocate f).completeFunction := by
  unfold completeFunction takeChildren
  simp [relocate, complete, Payload.mapChildren, stepsInput?, stepsOutput?, Function.comp_def]

theorem relocate_completeTypeParameter (d : Draft) :
    d.completeTypeParameter.relocate f = (d.relocate f).completeTypeParameter := by
  unfold completeTypeParameter takeChildren
  rcases hc : d.children.toList with _ | ⟨input, _ | ⟨output, _ | ⟨target, ns⟩⟩⟩ <;>
    simp [relocate, complete, hc]

theorem relocate_reverseChildrenFrom (d : Draft) (kept : Nat) :
    (d.reverseChildrenFrom kept).relocate f = (d.relocate f).reverseChildrenFrom kept := by
  simp [relocate, reverseChildrenFrom]

end Draft

/-! ## Changes of a draft -/

namespace Edit

/-- What a change came to, with other spans. -/
def relocated (f : Span → Span) :
    EStateM.Result ParseError Draft Unit → EStateM.Result ParseError Draft Unit
  | .ok u d => .ok u (d.relocate f)
  | .error e d => .error { e with span := f e.span } (d.relocate f)

/-- What a change does to a draft another does to the draft with other spans. -/
def Moves (f : Span → Span) (edit edit' : Edit) : Prop :=
  ∀ d : Draft, edit' (d.relocate f) = relocated f (edit d)

theorem moves_pure : Moves f (pure ()) (pure ()) :=
  fun _ => rfl

theorem moves_modify {g : Draft → Draft} (h : ∀ d, (g d).relocate f = g (d.relocate f)) :
    Moves f (modify g) (modify g) := by
  intro d
  show EStateM.Result.ok () (g (d.relocate f)) = .ok () ((g d).relocate f)
  rw [h]

end Edit

namespace Draft

theorem moves_pushName (name : String) : Edit.Moves f (pushName name) (pushName name) :=
  Edit.moves_modify fun _ => rfl

theorem moves_pushKey (key : String) (span : Span) :
    Edit.Moves f (pushKey key span) (pushKey key (f span)) := by
  intro d
  show EStateM.Result.ok () _ = .ok () _
  simp [relocate]

theorem moves_pushChild (n : Node) : Edit.Moves f (pushChild n) (pushChild (n.relocate f)) := by
  intro d
  show EStateM.Result.ok () _ = .ok () _
  simp [relocate]

theorem moves_attachUsing (n : Node) :
    Edit.Moves f (attachUsing n) (attachUsing (n.relocate f)) := by
  unfold attachUsing
  rw [Node.payload_relocate]
  cases n.payload with
  | identifierChain path => exact Edit.moves_modify fun _ => rfl
  | _ => exact Edit.moves_pure

theorem moves_attachEntry (n : Node) :
    Edit.Moves f (attachEntry n) (attachEntry (n.relocate f)) := by
  intro d
  have hpop : ({ d.relocate f with keys := (d.relocate f).keys.pop } : Draft) =
      ({ d with keys := d.keys.pop } : Draft).relocate f := by
    simp [relocate]
  simp only [attachEntry, Node.span_relocate, back?_keys_relocate, hpop, insertEntry,
    hasEntry_relocate]
  split
  · rfl
  · simp [Edit.relocated, relocate]

theorem moves_attachNumeral (text : String) (span : Span) :
    Edit.Moves f (attachNumeral text span) (attachNumeral text (f span)) := by
  unfold attachNumeral
  cases Numeral.value text with
  | ok value => exact Edit.moves_modify (relocate_completeInteger value)
  | error cause => exact fun _ => rfl

end Draft

/-! ## Patterns -/

namespace Pattern

variable {ν : Type} {inner : Pattern ν}

/-- A pattern whose changes of a draft do to a draft with other spans what they do to the
draft. Of a token they read the text, and its span is another then as well. The pattern ends
behind a token or where it started, which the end of the source does not, unless one only
looks ahead to it. -/
def Natural : Pattern ν → Prop
  | .token _ note => ∀ (f : Span → Span) (x x' : Lexeme), x'.text = x.text → x'.span = f x.span →
      Edit.Moves f (note x) (note x')
  | .done | .never | .ref _ => True
  | .endOfInput => False
  | .andThen p q | .orElse p q => p.Natural ∧ q.Natural
  | .optional p | .many p | .separated p _ => p.Natural
  | .ahead p => p = .endOfInput
  | .child p attach => p.Natural ∧
      ∀ (f : Span → Span) (n : Node), Edit.Moves f (attach n) (attach (n.relocate f))
  | .andEdit p edit => p.Natural ∧
      ∀ (f : Span → Span) (d : Draft), Edit.Moves f (edit d) (edit (d.relocate f))

theorem expect_natural (k : TokenKind) : (expect k : Pattern ν).Natural :=
  fun _ _ _ _ _ => Edit.moves_pure

/-- A token of which only the text is noted. -/
theorem token_natural {k : TokenKind} {note : String → Edit}
    (h : ∀ f text, Edit.Moves f (note text) (note text)) :
    (token k fun x => note x.text : Pattern ν).Natural := by
  intro f x x' htext _
  simp only [htext]
  exact h f x.text

theorem firstOf_natural {ps : List (Pattern ν)} (h : ∀ p ∈ ps, p.Natural) :
    (firstOf ps).Natural := by
  induction ps with
  | nil => trivial
  | cons p ps ih =>
      rw [List.forall_mem_cons] at h
      exact ⟨h.1, ih h.2⟩

/-- A pattern after which the draft is completed. -/
theorem complete_natural {p : Pattern ν} {g : Draft → Draft} (hp : p.Natural)
    (hg : ∀ f d, (g d).relocate f = g (d.relocate f)) :
    (andEdit p fun _ => modify g).Natural :=
  ⟨hp, fun f _ => Edit.moves_modify (hg f)⟩

end Pattern

namespace Grammar

open Pattern

variable {ν : Type} {inner : Pattern ν}

theorem discard_natural : (discard : Pattern ν).Natural :=
  complete_natural (expect_natural _) fun _ => Draft.relocate_completeDiscard

theorem integer_natural : (integer : Pattern ν).Natural := by
  intro f x x' htext hspan
  simp only [htext, hspan]
  exact Draft.moves_attachNumeral _ _

theorem string_natural : (string : Pattern ν).Natural :=
  token_natural fun _ text => Edit.moves_modify (Draft.relocate_completeString text)

theorem segment_natural : (segment : Pattern ν).Natural :=
  token_natural fun _ => Draft.moves_pushName

theorem identifierChain_natural : (identifierChain : Pattern ν).Natural :=
  complete_natural ⟨segment_natural, ⟨expect_natural _, segment_natural, trivial⟩, trivial⟩
    fun _ => Draft.relocate_completeChain

theorem nested_natural (h : inner.Natural) : (nested inner).Natural :=
  ⟨h, fun _ => Draft.moves_pushChild⟩

theorem list_natural (h : inner.Natural) : (list inner).Natural :=
  complete_natural ⟨expect_natural _, nested_natural h, expect_natural _, trivial⟩
    fun _ => Draft.relocate_completeList

theorem entry_natural (h : inner.Natural) : (entry inner).Natural := by
  refine ⟨fun f x x' htext hspan => ?_, expect_natural _, ⟨h, fun _ => Draft.moves_attachEntry⟩,
    trivial⟩
  simp only [htext, hspan]
  exact Draft.moves_pushKey _ _

theorem map_natural (h : inner.Natural) : (map inner).Natural :=
  complete_natural ⟨expect_natural _, entry_natural h, expect_natural _, trivial⟩
    fun _ => Draft.relocate_completeMap

theorem signature_natural : (signature : Pattern ν).Natural := by
  refine ⟨expect_natural _, fun f x x' htext _ => ?_, fun f x x' htext _ => ?_, expect_natural _,
    trivial⟩ <;> simp only [htext]
  · exact Edit.moves_modify fun _ => rfl
  · exact Edit.moves_modify fun _ => rfl

theorem clause_natural (h : inner.Natural) : (clause inner).Natural := by
  refine ⟨nested_natural h, fun f d => ?_⟩
  have hsize : (d.relocate f).children.size = d.children.size := by simp [Draft.relocate]
  simp only [hsize]
  exact Edit.moves_modify fun e => Draft.relocate_reverseChildrenFrom e _

theorem function_natural (h : inner.Natural) : (function inner).Natural := by
  have hword : (Pattern.optional (.word .fnWord) : Pattern ν).Natural :=
    show (Pattern.word .fnWord : Pattern ν).Natural from expect_natural _
  have hmore : (Pattern.many (.sequence [.mark .clauseSeparator, clause inner])).Natural :=
    ⟨expect_natural _, clause_natural h, trivial⟩
  exact complete_natural ⟨hword, expect_natural _, signature_natural, clause_natural h, hmore,
    expect_natural _, trivial⟩ fun _ => Draft.relocate_completeFunction

theorem typeParameter_natural (h : inner.Natural) : (typeParameter inner).Natural :=
  complete_natural ⟨expect_natural _, nested_natural h, expect_natural _, nested_natural h,
    expect_natural _, nested_natural h, trivial⟩ fun _ => Draft.relocate_completeTypeParameter

theorem wrapped_natural (h : inner.Natural) (m : Symbol) (w : Keyword) :
    (wrapped inner m w).Natural :=
  ⟨⟨expect_natural _, expect_natural _, trivial⟩, nested_natural h, trivial⟩

theorem value_natural (h : inner.Natural) : (value inner).Natural := by
  refine firstOf_natural ?_
  simp only [List.forall_mem_cons, List.not_mem_nil, false_implies, implies_true, and_true]
  exact ⟨list_natural h, map_natural h, function_natural h, typeParameter_natural h,
    complete_natural (wrapped_natural h _ _) fun _ => Draft.relocate_completeTypeAlias,
    complete_natural (wrapped_natural h _ _) fun _ => Draft.relocate_completeTypeIdentity,
    discard_natural, integer_natural, identifierChain_natural, string_natural⟩

theorem ref_natural : (Pattern.ref Nonterminal.value).Natural :=
  trivial

theorem useStatement_natural : (useStatement : Pattern ν).Natural :=
  ⟨expect_natural _, ⟨identifierChain_natural, fun _ => Draft.moves_attachUsing⟩, trivial⟩

theorem soleValue_natural (h : inner.Natural) : (soleValue inner).Natural :=
  ⟨value_natural h, rfl, trivial⟩

end Grammar

end WeLang
