import Mathlib
import WeLang.Node.Stored
import WeLang.Proofs.Typing

/-!
# Stored trees read back

A tree that is written as data is read back as it was, whatever it is a tree of
(`Node.ofDatum?_toDatum`). That is an induction over all that a tree is made of, in which
each way to write something has its way to be read, and no two ways to write a payload or
a type that may be missing look the same.

But nobody promises that data comes back in the order in which it was written: the members
of an object have no order, and the rows of a table have none either. So what is read is
any data that says the same (`Datum.Same`). Fields are found by their names wherever they
are, since a structure writes none of them twice (`Datum.SameMembers.field?`); and rows make
the same table in whatever order they come (`Table.Ordered.ofRows_of_perm`), which is why
the tables of the tree have to be tables.
-/

namespace WeLang

/-! ## Data that says the same -/

namespace Datum

mutual

/-- The same data, but for the order of members in objects. -/
inductive Same : Datum → Datum → Prop
  | null : Same .null .null
  | number (n : Nat) : Same (.number n) (.number n)
  | text (s : String) : Same (.text s) (.text s)
  | sequence {ds ds' : List Datum} (items : SameItems ds ds') :
      Same (.sequence ds) (.sequence ds')
  | object {ms ms' ms'' : List (String × Datum)} (members : SameMembers ms ms')
      (order : ms'.Perm ms'') : Same (.object ms) (.object ms'')

/-- Items that say the same, one by one. -/
inductive SameItems : List Datum → List Datum → Prop
  | nil : SameItems [] []
  | cons {d d' : Datum} {ds ds' : List Datum} (head : Same d d') (tail : SameItems ds ds') :
      SameItems (d :: ds) (d' :: ds')

/-- Members of the same names that say the same, one by one. -/
inductive SameMembers : List (String × Datum) → List (String × Datum) → Prop
  | nil : SameMembers [] []
  | cons {d d' : Datum} {ms ms' : List (String × Datum)} (name : String) (head : Same d d')
      (tail : SameMembers ms ms') : SameMembers ((name, d) :: ms) ((name, d') :: ms')

end

mutual

theorem Same.refl : (d : Datum) → Same d d
  | .null => .null
  | .number n => .number n
  | .text s => .text s
  | .sequence ds => .sequence (SameItems.refl ds)
  | .object ms => .object (SameMembers.refl ms) (.refl ms)

theorem SameItems.refl : (ds : List Datum) → SameItems ds ds
  | [] => .nil
  | d :: ds => .cons (Same.refl d) (SameItems.refl ds)

theorem SameMembers.refl : (ms : List (String × Datum)) → SameMembers ms ms
  | [] => .nil
  | (name, d) :: ms => .cons name (Same.refl d) (SameMembers.refl ms)

end

variable {ms ms' ms'' : List (String × Datum)} {name : String} {d : Datum}

theorem SameMembers.filter (h : SameMembers ms ms') (name : String) :
    SameMembers (ms.filter (·.1 = name)) (ms'.filter (·.1 = name)) := by
  induction ms generalizing ms' with
  | nil =>
      cases h
      exact .nil
  | cons m ms ih =>
      cases h with
      | cons other head tail =>
          rw [List.filter_cons, List.filter_cons]
          by_cases hname : other = name
          · simpa [hname] using .cons name head (ih tail)
          · simpa [hname] using ih tail

/-- A field is found again, wherever it is. -/
theorem SameMembers.field? (h : SameMembers ms ms') (order : ms'.Perm ms'') (name : String)
    (hd : Datum.field? ms name = some d) :
    ∃ d', Same d d' ∧ Datum.field? ms'' name = some d' ∧
      Datum.fieldOrNull? ms'' name = some d' := by
  rw [Datum.field?] at hd
  split at hd
  · next member hfilter =>
      cases hd
      have hsame := h.filter name
      rw [hfilter] at hsame
      generalize hfilter' : ms'.filter (·.1 = name) = found at hsame
      cases hsame with
      | cons other head tail =>
          cases tail
          have hperm := order.filter (·.1 = name)
          rw [hfilter', List.singleton_perm] at hperm
          refine ⟨_, head, ?_, ?_⟩
          · rw [Datum.field?, ← hperm]
          · rw [Datum.fieldOrNull?, ← hperm]
  · cases hd

/-- So is a field that is an object, and its members say the same. -/
theorem SameMembers.membersField? (h : SameMembers ms ms') (order : ms'.Perm ms'')
    (name : String) {rows : List (String × Datum)}
    (hd : Datum.field? ms name = some (.object rows)) :
    ∃ rows' rows'', SameMembers rows rows' ∧ rows'.Perm rows'' ∧
      Datum.membersField? ms'' name = some rows'' := by
  obtain ⟨d', hsame, hfield, -⟩ := h.field? order name hd
  cases hsame with
  | object hrows horder =>
      refine ⟨_, _, hrows, horder, ?_⟩
      rw [Datum.membersField?, hfield]
      rfl

/-- And a field that is a sequence. -/
theorem SameMembers.itemsField? (h : SameMembers ms ms') (order : ms'.Perm ms'')
    (name : String) {ds : List Datum} (hd : Datum.field? ms name = some (.sequence ds)) :
    ∃ ds', SameItems ds ds' ∧ Datum.itemsField? ms'' name = some ds' := by
  obtain ⟨d', hsame, hfield, -⟩ := h.field? order name hd
  cases hsame with
  | sequence hitems =>
      refine ⟨_, hitems, ?_⟩
      rw [Datum.itemsField?, hfield]
      rfl

/-- What has one member still has it alone. -/
theorem Same.tagged {d₂ : Datum} (h : Same (.object [(name, d)]) d₂) :
    ∃ d', Same d d' ∧ d₂ = .object [(name, d')] := by
  cases h with
  | object members order =>
      cases members with
      | cons _ head tail =>
          cases tail
          rw [List.singleton_perm] at order
          exact ⟨_, head, congrArg Datum.object order.symm⟩

end Datum

/-! ## Tables -/

section Tables

open Datum

variable {α : Type} {read : Datum → Option α} {ms ms' : List (String × Datum)}
  {table : Table α} {name : String}

/-- The members of an object are read one by one as rows. -/
def ReadAsRows (read : Datum → Option α) (ms : List (String × Datum))
    (rows : List (String × α)) : Prop :=
  ms.Forall₂ (fun m row => m.1 = row.1 ∧ read m.2 = some row.2) rows

/-- What reads members one after the other reads them as rows. -/
theorem readAsRows_iff {readAll : List (String × Datum) → Option (List (String × α))}
    (nil : readAll [] = some [])
    (cons : ∀ name d ms, readAll ((name, d) :: ms) =
      (read d).bind fun x => (readAll ms).bind fun rows => some ((name, x) :: rows))
    {rows : List (String × α)} : readAll ms = some rows ↔ ReadAsRows read ms rows := by
  induction ms generalizing rows with
  | nil => rw [nil, ReadAsRows, List.forall₂_nil_left_iff, Option.some.injEq, eq_comm]
  | cons m ms ih =>
      obtain ⟨name, d⟩ := m
      rw [cons, ReadAsRows, List.forall₂_cons_left_iff]
      simp only [Option.bind_eq_some_iff, ih]
      constructor
      · rintro ⟨x, hx, rows, hrows, heq⟩
        cases heq
        exact ⟨(name, x), rows, ⟨rfl, hx⟩, hrows, rfl⟩
      · rintro ⟨⟨name, x⟩, rows, ⟨rfl, hx⟩, hrows, rfl⟩
        exact ⟨x, hx, rows, hrows, rfl⟩

/-- Whatever order they come in, they are read as the same table. -/
theorem ReadAsRows.perm (h : ReadAsRows read ms table) (order : ms.Perm ms')
    (ht : table.Ordered) : ∃ rows, ReadAsRows read ms' rows ∧ Table.ofRows rows = table := by
  obtain ⟨rows, hrows, hperm⟩ := List.perm_comp_forall₂ order.symm h
  exact ⟨rows, hrows, ht.ofRows_of_perm hperm⟩

end Tables

/-! ## Types -/

namespace Ty

mutual

/-- The requirements of a type are a table, and so are those of each of them. -/
def Ordered : Ty → Prop
  | ⟨_, rows⟩ => Table.Ordered rows ∧ RowsOrdered rows

/-- The same for each of some rows. -/
def RowsOrdered : List (String × Ty) → Prop
  | [] => True
  | (_, t) :: rows => t.Ordered ∧ RowsOrdered rows

end

theorem rowsOfData?_iff {ms : List (String × Datum)} {rows : List (String × Ty)} :
    rowsOfData? ms = some rows ↔ ReadAsRows ofDatum? ms rows := by
  refine readAsRows_iff ?_ fun name d ms => ?_
  · rw [rowsOfData?]
  · rw [rowsOfData?]
    rfl

theorem ofDatum?_object (ms : List (String × Datum)) :
    ofDatum? (.object ms) = do
      let claim ← (Datum.field? ms "claim").bind Datum.text?
      let rows ← (Datum.membersField? ms "requirements").bind rowsOfData?
      return ⟨claim, Table.ofRows rows⟩ := by
  rw [ofDatum?]
  simp only [Option.pbind_eq_bind]

mutual

/-- A type is read back from whatever says what was written of it. -/
theorem ofDatum?_of_same : (t : Ty) → t.Ordered → ∀ d, t.toDatum.Same d → ofDatum? d = some t
  | ⟨claim, rows⟩, hordered, _, .object members order => by
      obtain ⟨_, ⟨⟩, hclaim, -⟩ := members.field? order "claim" rfl
      obtain ⟨_, _, hrows, horder, hrequirements⟩ :=
        members.membersField? order "requirements" rfl
      obtain ⟨rows', hread, htable⟩ :=
        (rowsOfData?_of_same rows hordered.2 _ hrows).perm horder hordered.1
      rw [ofDatum?_object, hclaim, hrequirements]
      simp [Datum.text?, rowsOfData?_iff.2 hread, htable]

theorem rowsOfData?_of_same : (rows : List (String × Ty)) → RowsOrdered rows →
    ∀ ms, Datum.SameMembers (rowsToData rows) ms → ReadAsRows ofDatum? ms rows
  | [], _, _, .nil => .nil
  | (name, t) :: rows, hordered, _, .cons _ head tail =>
      .cons ⟨rfl, ofDatum?_of_same t hordered.1 _ head⟩
        (rowsOfData?_of_same rows hordered.2 _ tail)

end

/-- A type that may be missing is read back, and known to be missing if it is. -/
theorem ofDatumOrNull?_of_same {t? : Option Ty} (h : ∀ t ∈ t?, t.Ordered) {d : Datum}
    (hd : (toDatumOrNull t?).Same d) : ofDatumOrNull? d = some t? := by
  cases t? with
  | none =>
      cases hd
      rfl
  | some t =>
      have hread := ofDatum?_of_same t (h t rfl) d hd
      obtain ⟨claim, rows⟩ := t
      cases hd with
      | object _ _ => exact congrArg (Option.map some) hread

end Ty

/-! ## Spans and texts -/

theorem Span.ofDatum?_of_same (span : Span) {d : Datum} (hd : span.toDatum.Same d) :
    Span.ofDatum? d = some span := by
  cases hd with
  | object members order =>
      obtain ⟨_, ⟨⟩, hstart, -⟩ := members.field? order "start" rfl
      obtain ⟨_, ⟨⟩, hstop, -⟩ := members.field? order "end" rfl
      simp [Span.ofDatum?, hstart, hstop, Datum.number?]

namespace Datum

theorem SameItems.eq_of_texts {texts : List String} {ds : List Datum}
    (h : SameItems (texts.map .text) ds) : ds = texts.map .text := by
  induction texts generalizing ds with
  | nil =>
      cases h
      rfl
  | cons text texts ih =>
      cases h with
      | cons head tail =>
          cases head
          rw [ih tail, List.map_cons]

theorem mapM_text? (texts : List String) : (texts.map text).mapM text? = some texts := by
  induction texts with
  | nil => rfl
  | cons text texts ih =>
      rw [List.map_cons, List.mapM_cons, ih]
      rfl

theorem texts?_of_same {texts : List String} {d : Datum} (hd : (ofTexts texts).Same d) :
    d.texts? = some texts := by
  cases hd with
  | sequence items =>
      rw [items.eq_of_texts]
      exact mapM_text? texts

theorem mapM_texts?_of_same {chains : List (List String)} {ds : List Datum}
    (h : SameItems (chains.map ofTexts) ds) : ds.mapM texts? = some chains := by
  induction chains generalizing ds with
  | nil =>
      cases h
      rfl
  | cons chain chains ih =>
      cases h with
      | cons head tail => simp [texts?_of_same head, ih tail]

theorem word?_toNat (n : UInt64) : (number n.toNat).word? = some n := by
  rw [word?, if_pos n.toNat_lt, UInt64.ofNat_toNat]

end Datum

/-! ## Nodes -/

/-- The entries of a payload that has some are a table. -/
def Payload.Tabled {α : Type} : Payload α → Prop
  | module _ entries | map entries => Table.Ordered entries
  | _ => True

namespace Node

/-- What a node has by name is a table: its entries, and the requirements of its types. -/
structure Tabled (n : Node) : Prop where
  selfType : n.selfType.Ordered
  inType : ∀ t ∈ n.inType, t.Ordered
  outType : ∀ t ∈ n.outType, t.Ordered
  entries : n.payload.Tabled

/-- All that a tree has by name is a table. -/
def Ordered (n : Node) : Prop :=
  n.Everywhere Tabled

theorem ordered_iff {n : Node} : n.Ordered ↔ n.Tabled ∧ ∀ c ∈ n.children, c.Ordered :=
  everywhere_iff

theorem rowsOfData?_iff {ms : List (String × Datum)} {rows : List (String × Node)} :
    rowsOfData? ms = some rows ↔ ReadAsRows ofDatum? ms rows := by
  refine readAsRows_iff ?_ fun name d ms => ?_
  · rw [rowsOfData?]
  · rw [rowsOfData?]
    rfl

theorem ofDatum?_object (ms : List (String × Datum)) :
    ofDatum? (.object ms) = do
      let selfType ← (Datum.field? ms "self_type").bind Ty.ofDatum?
      let inType ← (Datum.fieldOrNull? ms "in_type").bind Ty.ofDatumOrNull?
      let outType ← (Datum.fieldOrNull? ms "out_type").bind Ty.ofDatumOrNull?
      let span ← (Datum.field? ms "span").bind Span.ofDatum?
      let payload ← (Datum.field? ms "kind").bind payloadOfDatum?
      return ⟨selfType, inType, outType, span, payload⟩ := by
  rw [ofDatum?]
  simp only [Option.pbind_eq_bind]

mutual

/-- A tree is read back from whatever says what was written of it. -/
theorem ofDatum?_of_same : (n : Node) → n.Ordered → ∀ d, n.toDatum.Same d → ofDatum? d = some n
  | ⟨selfType, inType, outType, span, payload⟩, hordered, _, .object members order => by
      obtain ⟨htables, hchildren⟩ := ordered_iff.1 hordered
      obtain ⟨_, hself, hself', -⟩ := members.field? order "self_type" rfl
      obtain ⟨_, hin, -, hin'⟩ := members.field? order "in_type" rfl
      obtain ⟨_, hout, -, hout'⟩ := members.field? order "out_type" rfl
      obtain ⟨_, hspan, hspan', -⟩ := members.field? order "span" rfl
      obtain ⟨_, hkind, hkind', -⟩ := members.field? order "kind" rfl
      have hpayload := payloadOfDatum?_of_same payload htables.entries hchildren _ hkind
      rw [ofDatum?_object, hself', hin', hout', hspan', hkind']
      simp [Ty.ofDatum?_of_same selfType htables.selfType _ hself,
        Ty.ofDatumOrNull?_of_same htables.inType hin,
        Ty.ofDatumOrNull?_of_same htables.outType hout, span.ofDatum?_of_same hspan, hpayload]

theorem payloadOfDatum?_of_same : (p : Payload Node) → p.Tabled →
    (∀ c ∈ p.children, c.Ordered) → ∀ d, (payloadToDatum p).Same d → payloadOfDatum? d = some p
  | .module usings entries, htable, hchildren, _, hd => by
      obtain ⟨_, hbody, rfl⟩ := hd.tagged
      cases hbody with
      | object members order =>
          obtain ⟨_, husings, husings'⟩ := members.itemsField? order "usings" rfl
          obtain ⟨_, _, hrows, horder, hentries⟩ := members.membersField? order "entries" rfl
          obtain ⟨rows, hread, rfl⟩ :=
            (rowsOfData?_of_same entries hchildren _ hrows).perm horder htable
          rw [payloadOfDatum?, payloadOfTagged?, husings', Option.bind_some,
            Datum.mapM_texts?_of_same husings, Option.pbind_eq_bind, hentries]
          simp [rowsOfData?_iff.2 hread]
  | .list items, _, hchildren, _, hd => by
      obtain ⟨_, hbody, rfl⟩ := hd.tagged
      cases hbody with
      | sequence hitems =>
          rw [payloadOfDatum?, payloadOfTagged?, listOfData?_of_same items hchildren _ hitems]
          rfl
  | .map entries, htable, hchildren, _, hd => by
      obtain ⟨_, hbody, rfl⟩ := hd.tagged
      cases hbody with
      | object members order =>
          obtain ⟨rows, hread, rfl⟩ :=
            (rowsOfData?_of_same entries hchildren _ members).perm order htable
          rw [payloadOfDatum?, payloadOfTagged?, rowsOfData?_iff.2 hread]
          rfl
  | .function steps, _, hchildren, _, hd => by
      obtain ⟨_, hbody, rfl⟩ := hd.tagged
      cases hbody with
      | object members order =>
          obtain ⟨_, hsteps, hsteps'⟩ := members.itemsField? order "steps" rfl
          rw [payloadOfDatum?, payloadOfTagged?, Option.pbind_eq_bind, hsteps']
          simp [listOfData?_of_same steps hchildren _ hsteps]
  | .typeAlias target, _, hchildren, _, hd => by
      obtain ⟨d, hbody, rfl⟩ := hd.tagged
      rw [payloadOfDatum?, payloadOfTagged?,
        ofDatum?_of_same target (hchildren _ List.mem_cons_self) d hbody]
      rfl
  | .typeIdentity target, _, hchildren, _, hd => by
      obtain ⟨d, hbody, rfl⟩ := hd.tagged
      rw [payloadOfDatum?, payloadOfTagged?,
        ofDatum?_of_same target (hchildren _ List.mem_cons_self) d hbody]
      rfl
  | .discard, _, _, _, hd => by
      cases hd
      rw [payloadOfDatum?, if_pos rfl]
  | .integer value, _, _, _, hd => by
      obtain ⟨_, hbody, rfl⟩ := hd.tagged
      cases hbody
      rw [payloadOfDatum?, payloadOfTagged?, Datum.word?_toNat]
      rfl
  | .identifierChain path, _, _, _, hd => by
      obtain ⟨_, hbody, rfl⟩ := hd.tagged
      rw [payloadOfDatum?, payloadOfTagged?, Datum.texts?_of_same hbody]
      rfl
  | .string text, _, _, _, hd => by
      obtain ⟨_, hbody, rfl⟩ := hd.tagged
      cases hbody
      rw [payloadOfDatum?, payloadOfTagged?]
      rfl

theorem listOfData?_of_same : (ns : List Node) → (∀ n ∈ ns, n.Ordered) →
    ∀ ds, Datum.SameItems (listToData ns) ds → listOfData? ds = some ns
  | [], _, _, .nil => by rw [listOfData?]
  | n :: ns, hordered, _, .cons head tail => by
      have hn := ofDatum?_of_same n (hordered n List.mem_cons_self) _ head
      have hns := listOfData?_of_same ns (fun n hn => hordered n (List.mem_cons_of_mem _ hn)) _ tail
      rw [listOfData?, hn, hns]
      rfl

theorem rowsOfData?_of_same : (rows : List (String × Node)) →
    (∀ n ∈ Table.values rows, n.Ordered) →
    ∀ ms, Datum.SameMembers (rowsToData rows) ms → ReadAsRows ofDatum? ms rows
  | [], _, _, .nil => .nil
  | (key, n) :: rows, hordered, _, .cons _ head tail =>
      .cons ⟨rfl, ofDatum?_of_same n (hordered n List.mem_cons_self) _ head⟩
        (rowsOfData?_of_same rows (fun n hn => hordered n (List.mem_cons_of_mem _ hn)) _ tail)

end

/-- Stored trees read back unchanged. What was written of a tree is read as that tree, and so
is all that says the same, in whatever order the fields of its nodes and the rows of its
tables come. So trees of which the same is written are the same tree. -/
theorem ofDatum?_toDatum {n : Node} (hn : n.Ordered) :
    ofDatum? n.toDatum = some n ∧
    (∀ d, n.toDatum.Same d → ofDatum? d = some n) ∧
    ∀ m : Node, m.Ordered → n.toDatum.Same m.toDatum → m = n := by
  have hread (d : Datum) (hd : n.toDatum.Same d) : ofDatum? d = some n :=
    ofDatum?_of_same n hn d hd
  refine ⟨hread _ (.refl _), hread, fun m hm hsame => ?_⟩
  have hself := ofDatum?_of_same m hm _ (.refl _)
  exact Option.some.inj (hself.symm.trans (hread _ hsame))

/-- A map with two rows, one of which knows what it gives, and what is written of it with
the rows the other way round. -/
theorem ofDatum?_toDatum_map :
    let leaf : Node := ⟨.leaf Claim.discard, none, none, ⟨5, 6⟩, .discard⟩
    let last : Node := ⟨.leaf Claim.integer, none, some .absent, ⟨10, 11⟩, .integer 7⟩
    let rows : List (String × Datum) := [("b", last.toDatum), ("a", leaf.toDatum)]
    ofDatum? (.object [("self_type", (Ty.leaf Claim.map).toDatum), ("in_type", .null),
        ("out_type", .null), ("span", (Span.mk 0 12).toDatum),
        ("kind", .object [("Map", .object rows)])]) =
      some ⟨.leaf Claim.map, none, none, ⟨0, 12⟩, .map [("a", leaf), ("b", last)]⟩ := by
  intro leaf last rows
  have hclaim (claim : String) : (Ty.leaf claim).Ordered := ⟨.nil, trivial⟩
  have hleaf : leaf.Ordered :=
    ordered_iff.2 ⟨⟨hclaim _, by simp [leaf], by simp [leaf], trivial⟩, fun c hc => by cases hc⟩
  have hlast : last.Ordered := by
    refine ordered_iff.2 ⟨⟨hclaim _, by simp [last], ?_, trivial⟩, fun c hc => by cases hc⟩
    rintro _ ⟨⟩
    exact hclaim _
  have hordered :
      Ordered ⟨.leaf Claim.map, none, none, ⟨0, 12⟩, .map [("a", leaf), ("b", last)]⟩ := by
    refine ordered_iff.2 ⟨⟨hclaim _, by simp, by simp, ?_⟩, ?_⟩
    · show ["a", "b"].Pairwise (· < ·)
      decide
    · show ∀ c ∈ [leaf, last], c.Ordered
      simp [hleaf, hlast]
  refine (ofDatum?_toDatum hordered).2.1 _ (.object (.cons _ (.refl _) (.cons _ (.refl _)
    (.cons _ (.refl _) (.cons _ (.refl _) (.cons _ ?_ .nil))))) (.refl _))
  exact .object (.cons _ (.object (.refl _) (.swap ..)) .nil) (.refl _)

end Node

end WeLang
