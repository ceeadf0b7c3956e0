import WeLang.Proofs.Collections
import WeLang.Proofs.Tracing

/-!
# Drafts taken back

A draft keeps its entries in the order in which they came, and going back to a mark cuts off
the last of them. Whoever wants to look entries up keeps them in a table, which has no last
entries, and keeps the order of the keys beside it (`Register`): to go back is then to take
each key that is cut off the order out of the table. What there is to be shown is that this is
the same. A register that is changed along with a draft always holds just the draft's entries
(`Draft.Kept.records`), the order being that of the keys, each of which is there once.

From that it follows that marks are exact. Whatever is added to a draft, and whatever is
undone again on the way, what there was when the mark was set lies below all of it
(`Draft.Grown`), so the cut leaves just that. Only what takes entries out of a draft would be
felt, and must not happen in between.
-/

namespace WeLang

/-! ## Tables without a row -/

namespace Table

variable {α : Type}

/-- A table without the row of a name. -/
def erase (table : Table α) (name : String) : Table α :=
  table.filter fun row => row.1 ≠ name

theorem get?_erase (table : Table α) (name other : String) :
    (table.erase name).get? other = if other = name then none else table.get? other := by
  induction table with
  | nil => simp [erase, get?]
  | cons row rows ih =>
      obtain ⟨key, x⟩ := row
      simp only [erase, get?] at ih ⊢
      by_cases hkey : key = name
      · subst hkey
        rw [List.filter_cons_of_neg (by simp), ih, List.lookup_cons]
        by_cases hother : other = key
        · rw [if_pos hother, if_pos hother]
        · rw [if_neg hother, if_neg hother, beq_false_of_ne hother]
      · rw [List.filter_cons_of_pos (by simpa using hkey), List.lookup_cons, List.lookup_cons, ih]
        by_cases hother : other = key
        · subst hother
          simp [hkey]
        · simp [beq_false_of_ne hother]

theorem Ordered.erase {table : Table α} (h : table.Ordered) (name : String) :
    (table.erase name).Ordered :=
  List.Pairwise.sublist (List.filter_sublist.map Prod.fst) h

/-- A table without the rows of some names. -/
def eraseAll (table : Table α) (names : List String) : Table α :=
  names.foldl erase table

theorem get?_eraseAll (table : Table α) (names : List String) (name : String) :
    (table.eraseAll names).get? name = if name ∈ names then none else table.get? name := by
  induction names generalizing table with
  | nil => simp [eraseAll]
  | cons first names ih =>
      have hstep : table.eraseAll (first :: names) = (table.erase first).eraseAll names := rfl
      rw [hstep, ih, get?_erase]
      by_cases hname : name = first <;> simp [hname]

theorem Ordered.eraseAll {table : Table α} (h : table.Ordered) (names : List String) :
    (table.eraseAll names).Ordered := by
  induction names generalizing table with
  | nil => exact h
  | cons first names ih => exact ih (h.erase first)

/-- Of rows with different names the last ones are taken out by their names. -/
theorem eraseAll_ofRows_append {rows more : List (String × α)}
    (h : ((rows ++ more).map Prod.fst).Nodup) :
    (ofRows (rows ++ more)).eraseAll (more.map Prod.fst) = ofRows rows := by
  rw [List.map_append] at h
  obtain ⟨-, -, hdisjoint⟩ := List.nodup_append'.1 h
  refine ((ordered_ofRows _).eraseAll _).ext (ordered_ofRows _) fun name => ?_
  have hlookup (rows : List (String × α)) (hname : name ∉ rows.map Prod.fst) :
      rows.reverse.lookup name = none := by
    rw [List.lookup_eq_none_iff]
    intro row hrow
    have hne : name ≠ row.1 :=
      fun heq => hname (heq ▸ List.mem_map_of_mem (List.mem_reverse.1 hrow))
    simpa using hne
  rw [get?_eraseAll, get?_ofRows, get?_ofRows, List.reverse_append, List.lookup_append]
  split
  · next hmem => rw [hlookup rows fun hname => hdisjoint hname hmem]
  · next hnot => rw [hlookup more hnot, Option.none_or]

end Table

/-! ## Registers -/

/-- Entries in a table, and the keys in the order in which they came. -/
structure Register where
  table : Table Node
  order : Array String

namespace Register

/-- A register without entries. -/
def empty : Register :=
  ⟨[], #[]⟩

/-- One more entry, if the table does not have its key. -/
def insert (r : Register) (key : String) (keySpan : Span) (value : Node) :
    Except ParseError Register :=
  if (r.table.get? key).isSome then
    .error { cause := .duplicateKey key, span := keySpan }
  else .ok ⟨r.table.insert key value, r.order.push key⟩

/-- The register with only so many of its keys, if it has as many. The others are taken out of
the table one by one. -/
def cut? (r : Register) (height : Nat) : Option Register :=
  if height ≤ r.order.size then
    some ⟨r.table.eraseAll (r.order.toList.drop height), r.order.take height⟩
  else none

end Register

namespace Draft

/-- The entries of a draft as a register. -/
def register (d : Draft) : Register :=
  ⟨d.entryTable, d.entries.map Prod.fst⟩

/-! ## What is done to a draft -/

/-- Something that is done to a draft while it is read. -/
inductive Act where
  | pushName (name : String)
  | pushChild (child : Node)
  | pushKey (key : String) (span : Span)
  | pushUsing (path : List String)
  | setSelfType (t : Option Ty)
  | setInType (t : Option Ty)
  | setOutType (t : Option Ty)
  | complete (payload : Payload Node) (selfType : Ty)
  | insertEntry (key : String) (span : Span) (value : Node)

namespace Act

/-- The edit that does it. -/
def edit : Act → Edit
  | pushName name => Draft.pushName name
  | pushChild child => Draft.pushChild child
  | pushKey key span => Draft.pushKey key span
  | pushUsing path => modify fun d => { d with usings := d.usings.push path }
  | setSelfType t => modify fun d => { d with selfType := t }
  | setInType t => modify fun d => { d with inType := t }
  | setOutType t => modify fun d => { d with outType := t }
  | complete payload selfType => modify fun d => d.complete payload selfType
  | insertEntry key span value => Draft.insertEntry key span value

/-- What it makes of a draft, be it refused or not. -/
def draft (a : Act) (d : Draft) : Draft :=
  match a.edit d with
  | .ok _ d' => d'
  | .error _ d' => d'

/-- What it makes of a register, which only entries get into. -/
def register (a : Act) (r : Register) : Register :=
  match a with
  | insertEntry key span value => (r.insert key span value).toOption.getD r
  | _ => r

end Act

/-- A draft that was blank once, and a register that was empty then. Things were done to both
of them, the entries were taken out, and they went back to any marks for which there were
entries enough. -/
inductive Kept : Draft → Register → Prop
  | blank : Kept .blank .empty
  | act {d : Draft} {r : Register} (h : Kept d r) (a : Act) : Kept (a.draft d) (a.register r)
  | take {d : Draft} {r : Register} (h : Kept d r) : Kept d.takeEntries.2 .empty
  | restore {d : Draft} {r r' : Register} (h : Kept d r) (m : Mark)
      (hcut : r.cut? m.entries = some r') : Kept (d.restore m) r'

/-- What a draft and a register have come to from others, and the marks that were set on the
way. Things were done to them, and they went back to some of these marks. -/
inductive Grown (b : Draft) (rb : Register) : List Mark → Draft → Register → Prop
  | start : Grown b rb [] b rb
  | act {ms : List Mark} {d : Draft} {r : Register} (h : Grown b rb ms d r) (a : Act) :
      Grown b rb ms (a.draft d) (a.register r)
  | mark {ms : List Mark} {d : Draft} {r : Register} (h : Grown b rb ms d r) :
      Grown b rb (d.mark :: ms) d r
  | restore {ms : List Mark} {d : Draft} {r r' : Register} (h : Grown b rb ms d r) {m : Mark}
      (hm : m ∈ ms) (hcut : r.cut? m.entries = some r') : Grown b rb ms (d.restore m) r'

end Draft

variable {b d : Draft} {r r' rb : Register} {ms : List Draft.Mark} {m : Draft.Mark}

/-! ## Entries -/

namespace Draft

/-- An entry under this key is refused, and nothing has changed then. -/
def Rejects (d : Draft) (r : Register) (key : String) : Prop :=
  ∀ span value, insertEntry key span value d = .error { cause := .duplicateKey key, span } d ∧
    r.insert key span value = .error { cause := .duplicateKey key, span }

/-- An entry under this key is taken. -/
def Admits (d : Draft) (r : Register) (key : String) : Prop :=
  ∀ span value,
    insertEntry key span value d = .ok () { d with entries := d.entries.push (key, value) } ∧
      r.insert key span value = .ok ⟨r.table.insert key value, r.order.push key⟩

theorem Rejects.act {key : String} (h : d.Rejects r key) (span : Span) (value : Node) :
    (Act.insertEntry key span value).draft d = d ∧
      (Act.insertEntry key span value).register r = r := by
  obtain ⟨hdraft, hregister⟩ := h span value
  constructor
  · simp only [Act.draft, Act.edit, hdraft]
  · simp only [Act.register, hregister]
    rfl

theorem Admits.act {key : String} (h : d.Admits r key) (span : Span) (value : Node) :
    (Act.insertEntry key span value).draft d = { d with entries := d.entries.push (key, value) } ∧
      (Act.insertEntry key span value).register r =
        ⟨r.table.insert key value, r.order.push key⟩ := by
  obtain ⟨hdraft, hregister⟩ := h span value
  constructor
  · simp only [Act.draft, Act.edit, hdraft]
  · simp only [Act.register, hregister]
    rfl

theorem mem_names_entryTable {key : String} : key ∈ d.entryTable.names ↔ key ∈ d.entryKeys :=
  Table.mem_names_ofRows

theorem toList_order_register : d.register.order.toList = d.entryKeys :=
  Array.toList_map ..

end Draft

/-- A register that holds the entries of a draft, each of which has a key of its own. -/
structure Register.Records (r : Register) (d : Draft) : Prop where
  eq : r = d.register
  nodup : d.entryKeys.Nodup

namespace Register.Records

open Draft

theorem blank : empty.Records Draft.blank :=
  ⟨by simp [empty, Draft.register, Draft.blank, entryTable, Table.ofRows], List.nodup_nil⟩

variable (h : r.Records d)
include h

theorem mem_order {key : String} : key ∈ r.order ↔ key ∈ d.entryKeys := by
  rw [h.eq, ← toList_order_register, Array.mem_toList_iff]

/-- A draft with the same entries has the same register. -/
theorem congr {d' : Draft} (hentries : d'.entries = d.entries) : r.Records d' := by
  constructor
  · rw [h.eq, Draft.register, Draft.register, entryTable, entryTable, hentries]
  · rw [entryKeys, hentries]
    exact h.nodup

theorem rejects {key : String} (hkey : key ∈ d.entryKeys) : d.Rejects r key := by
  refine fun span value => ⟨if_pos (hasEntry_iff.2 hkey), ?_⟩
  rw [← mem_names_entryTable, Table.mem_names] at hkey
  rw [h.eq]
  exact if_pos hkey

theorem admits {key : String} (hkey : key ∉ d.entryKeys) : d.Admits r key := by
  refine fun span value => ⟨if_neg fun hhas => hkey (hasEntry_iff.1 hhas), ?_⟩
  rw [← mem_names_entryTable, Table.mem_names] at hkey
  rw [h.eq]
  exact if_neg hkey

theorem push {key : String} (hkey : key ∉ d.entryKeys) (value : Node) :
    Records ⟨r.table.insert key value, r.order.push key⟩
      { d with entries := d.entries.push (key, value) } := by
  constructor
  · rw [h.eq]
    simp [Draft.register, entryTable, Table.ofRows_concat]
  · have hkeys : entryKeys { d with entries := d.entries.push (key, value) } =
        d.entryKeys ++ [key] := by
      simp [entryKeys]
    rw [hkeys]
    exact List.nodup_append'.2 ⟨h.nodup, List.nodup_singleton _, by simpa using hkey⟩

/-- To go back to a mark is the same for both. -/
theorem restore {m : Mark} (hcut : r.cut? m.entries = some r') : r'.Records (d.restore m) := by
  have hrows := d.entries.toList.take_append_drop m.entries
  have hnodup : ((d.entries.toList.take m.entries ++ d.entries.toList.drop m.entries).map
      Prod.fst).Nodup := by
    rw [hrows]
    exact h.nodup
  rw [h.eq, cut?] at hcut
  split at hcut
  · cases hcut
    constructor
    · have herase := Table.eraseAll_ofRows_append hnodup
      rw [hrows] at herase
      simp [Draft.register, entryTable, Draft.restore, ← List.map_drop, herase]
    · rw [List.map_append] at hnodup
      simpa [entryKeys, Draft.restore] using hnodup.of_append_left
  · cases hcut

theorem cut?_of_le {n : Nat} (hn : n ≤ d.entries.size) : ∃ r', r.cut? n = some r' := by
  rw [h.eq]
  exact ⟨_, if_pos (by simpa [Draft.register] using hn)⟩

end Register.Records

namespace Draft

/-- What is done to a draft and its register adds to the one, and leaves the other its
register. -/
theorem Act.extends_and_records (a : Act) (h : r.Records d) :
    d.Extends (a.draft d) ∧ (a.register r).Records (a.draft d) := by
  cases a with
  | insertEntry key span value =>
      by_cases hkey : key ∈ d.entryKeys
      · obtain ⟨hdraft, hregister⟩ := (h.rejects hkey).act span value
        rw [hdraft, hregister]
        exact ⟨.refl d, h⟩
      · obtain ⟨hdraft, hregister⟩ := (h.admits hkey).act span value
        rw [hdraft, hregister]
        exact ⟨{ Extends.refl d with entries := ⟨#[_], Array.push_eq_append⟩ }, h.push hkey value⟩
  | pushName name =>
      exact ⟨{ Extends.refl d with names := ⟨#[name], Array.push_eq_append⟩ }, h.congr rfl⟩
  | pushChild child =>
      exact ⟨{ Extends.refl d with children := ⟨#[child], Array.push_eq_append⟩ }, h.congr rfl⟩
  | pushKey key span =>
      exact ⟨{ Extends.refl d with keys := ⟨#[(key, span)], Array.push_eq_append⟩ }, h.congr rfl⟩
  | pushUsing path =>
      exact ⟨{ Extends.refl d with usings := ⟨#[path], Array.push_eq_append⟩ }, h.congr rfl⟩
  | setSelfType t | setInType t | setOutType t => exact ⟨{ Extends.refl d with }, h.congr rfl⟩
  | complete payload selfType => exact ⟨{ Extends.refl d with }, h.congr rfl⟩

/-- A register that is changed along with a draft holds its entries. -/
theorem Kept.records (h : Kept d r) : r.Records d := by
  induction h with
  | blank => exact .blank
  | act _ a ih => exact (a.extends_and_records ih).2
  | take _ ih =>
      exact ⟨by simp [takeEntries, register, entryTable, Table.ofRows, Register.empty],
        by simp [takeEntries, entryKeys]⟩
  | restore _ m hcut ih => exact ih.restore hcut

theorem Kept.rejects (h : Kept d r) {key : String} (hkey : key ∈ r.order) : d.Rejects r key :=
  h.records.rejects (h.records.mem_order.1 hkey)

theorem Kept.admits (h : Kept d r) {key : String} (hkey : key ∉ r.order) : d.Admits r key :=
  h.records.admits fun hmem => hkey (h.records.mem_order.2 hmem)

/-! ## Marks that were set later -/

/-- A mark that cuts off nothing of what a draft has. -/
structure Mark.Above (m : Mark) (b : Draft) : Prop where
  children : b.children.size ≤ m.children
  names : b.names.size ≤ m.names
  keys : b.keys.size ≤ m.keys
  usings : b.usings.size ≤ m.usings
  entries : b.entries.size ≤ m.entries

theorem Extends.mark_above (h : b.Extends d) : d.mark.Above b := by
  have hsize {α : Type} {a c : Array α} (h : ∃ more, c = a ++ more) : a.size ≤ c.size := by
    obtain ⟨more, rfl⟩ := h
    simp
  exact ⟨hsize h.children, hsize h.names, hsize h.keys, hsize h.usings, hsize h.entries⟩

/-- Whoever goes back to such a mark has still added to the draft. -/
theorem Extends.restore (h : b.Extends d) (hm : m.Above b) : b.Extends (d.restore m) := by
  have htake {α : Type} {a c : Array α} {n : Nat} (h : ∃ more, c = a ++ more) (hn : a.size ≤ n) :
      ∃ more, c.take n = a ++ more := by
    obtain ⟨more, rfl⟩ := h
    have hkept : a.extract 0 n = a := Array.extract_eq_self_iff.2 (.inr ⟨rfl, hn⟩)
    exact ⟨more.take (n - a.size), by simp [hkept]⟩
  exact ⟨htake h.children hm.children, htake h.names hm.names, htake h.keys hm.keys,
    htake h.usings hm.usings, htake h.entries hm.entries⟩

theorem Grown.extends_and_records (h : Grown b rb ms d r) (hb : rb.Records b) :
    b.Extends d ∧ r.Records d ∧ ∀ m ∈ ms, m.Above b := by
  induction h with
  | start => exact ⟨.refl b, hb, fun _ hm => by cases hm⟩
  | act _ a ih =>
      obtain ⟨hgrown, hrecords, hmarks⟩ := ih
      obtain ⟨hadds, hkept⟩ := a.extends_and_records hrecords
      exact ⟨hgrown.trans hadds, hkept, hmarks⟩
  | mark _ ih =>
      obtain ⟨hgrown, hrecords, hmarks⟩ := ih
      exact ⟨hgrown, hrecords, List.forall_mem_cons.2 ⟨hgrown.mark_above, hmarks⟩⟩
  | restore _ hm hcut ih =>
      obtain ⟨hgrown, hrecords, hmarks⟩ := ih
      exact ⟨hgrown.restore (hmarks _ hm), hrecords.restore hcut, hmarks⟩

/-- Marks are exact. Whatever was done to a draft and the register of its entries, the order of
the keys holds just the keys of the table, each once, and an entry is refused if its key is
there, which changes nothing, and else taken. And whatever is done from then on, with other
marks on the way, to go back to the mark of the draft leaves just what there was: the draft and
its register, in which all keys that came later are free again, and those from before are
not. -/
theorem marks_restore_exactly :
    (∀ d r, Kept d r → r = d.register ∧ d.mark.entries = r.order.size ∧ r.order.toList.Nodup ∧
      (∀ key, key ∈ r.order ↔ key ∈ r.table.names) ∧
      ∀ key, (key ∈ r.order → d.Rejects r key) ∧ (key ∉ r.order → d.Admits r key)) ∧
    ∀ b rb ms d r, Kept b rb → Grown b rb ms d r →
      d.restore b.mark = b ∧ r.cut? b.mark.entries = some rb ∧
      (∀ key ∈ rb.order, key ∈ r.order ∧ (d.restore b.mark).Rejects rb key) ∧
      ∀ key ∉ rb.order, (d.restore b.mark).Admits rb key := by
  refine ⟨fun d r h => ?_, fun b rb ms d r hb h => ?_⟩
  · have hrecords := h.records
    have hkeys : r.order.toList = d.entryKeys := by rw [hrecords.eq, toList_order_register]
    refine ⟨hrecords.eq, ?_, hkeys ▸ hrecords.nodup, fun key => ?_,
      fun key => ⟨h.rejects, h.admits⟩⟩
    · rw [hrecords.eq]
      exact (Array.size_map ..).symm
    · rw [hrecords.mem_order, hrecords.eq]
      exact mem_names_entryTable.symm
  · obtain ⟨hgrown, hrecords, -⟩ := h.extends_and_records hb.records
    have hback : d.restore b.mark = b := hgrown.restore_mark
    obtain ⟨r', hcut⟩ : ∃ r', r.cut? b.mark.entries = some r' :=
      hrecords.cut?_of_le hgrown.mark_above.entries
    have hr' : r' = rb := by
      rw [(hrecords.restore hcut).eq, hb.records.eq, hback]
    rw [hback, hcut, hr']
    refine ⟨rfl, rfl, fun key hkey => ⟨?_, hb.rejects hkey⟩, fun key => hb.admits⟩
    rw [hb.records.mem_order, entryKeys] at hkey
    obtain ⟨more, hmore⟩ := hgrown.entries
    rw [hrecords.mem_order, entryKeys, hmore, Array.toList_append, List.map_append]
    exact List.mem_append_left _ hkey

/-- An entry from before a mark, one from behind it, a third that is undone on the way, and one
that is refused. -/
theorem marks_restore_exactly_nested :
    ∃ (b d : Draft) (rb r : Register) (ms : List Mark), Kept b rb ∧ Grown b rb ms d r ∧
      "k" ∈ rb.order ∧ "x" ∉ rb.order ∧ "x" ∈ r.order ∧
      d.restore b.mark = b ∧ r.cut? b.mark.entries = some rb ∧
      (d.restore b.mark).Rejects rb "k" ∧ (d.restore b.mark).Admits rb "x" := by
  let put (key : String) : Act :=
    .insertEntry key ⟨0, 1⟩ ⟨.leaf Claim.discard, none, none, ⟨0, 1⟩, .discard⟩
  let b := (put "k").draft .blank
  let rb := (put "k").register .empty
  let c := (put "x").draft b
  let rc := (put "x").register rb
  have hb : Kept b rb := .act .blank (put "k")
  have hc : Kept c rc := .act hb (put "x")
  have horder : rb.order = #["k"] ∧ rc.order = #["k", "x"] := by
    simp [rb, rc, put, Act.register, Register.insert, Register.empty, Table.get?, Table.insert,
      Except.toOption]
  -- behind the entry of the second mark comes one more, which the mark cuts off
  have hinner : Grown c rc [] ((put "z").draft c) ((put "z").register rc) := .act .start (put "z")
  obtain ⟨hback, hcut, -⟩ := marks_restore_exactly.2 _ _ _ _ _ hc hinner
  have hd : Grown b rb [c.mark] ((put "k").draft c) ((put "k").register rc) := by
    have hundone := Grown.restore (.act (.mark (.act .start (put "x"))) (put "z"))
      List.mem_cons_self hcut
    rw [hback] at hundone
    exact hundone.act (put "k")
  have hrefused : (put "k").register rc = rc :=
    ((hc.rejects (by simp [horder])).act _ _).2
  obtain ⟨hmark, hregister, hold, hfree⟩ := marks_restore_exactly.2 _ _ _ _ _ hb hd
  exact ⟨b, _, rb, _, _, hb, hd, by simp [horder], by simp [horder], by simp [hrefused, horder],
    hmark, hregister, (hold "k" (by simp [horder])).2, hfree "x" (by simp [horder])⟩

end Draft

end WeLang
