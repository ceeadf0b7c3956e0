import WeLang.Proofs.Intact
import WeLang.Proofs.Showing

/-!
# The texts of the types in a tree

All that a type in a tree says was either put there by a production or read as a name: a
chain of names claims itself, a signature takes its claims from names, and a map requires
its keys. So no text in a type is empty, and there is nothing in it but letters, digits,
underscores and points (`Node.Spelled`).

That is kept by all that is done to a draft. Only two edits need more than that. A chain has
to have a name before it is completed, since no name at all would be an empty claim, and an
entry needs the key that was noted before it. Hence a pattern leads from one condition on
drafts to another (`Pattern.Leads`), and to keep one is to lead back to it.
-/

namespace WeLang

variable {src : Source} {o o' : Nat}

/-! ## Words -/

theorem ByteClass.exists_wordy {b : UInt8} (h : isNameByte b = true) :
    ∃ a : Char, (a.isAlphanum = true ∨ a = '_') ∧ a.val.toNat < 128 ∧ a.toUInt8 = b := by
  have hbyte : ∀ b : UInt8, isNameByte b = true →
      ((Char.ofNat b.toNat).isAlphanum = true ∨ Char.ofNat b.toNat = '_') ∧
        (Char.ofNat b.toNat).val.toNat < 128 ∧ (Char.ofNat b.toNat).toUInt8 = b := by
    decide +kernel
  exact ⟨_, hbyte b h⟩

theorem Literal.wordy_of_name {start stop : Nat} {text : String}
    (h : name src start = some stop) (htext : src.slice? start stop = some text) :
    Wordy text := by
  obtain ⟨-, hlt, hin, -⟩ := name_eq_some.1 h
  obtain ⟨-, -, -, hbytes⟩ := Source.slice?_eq_some.1 htext
  have hname (b : UInt8) (hb : b ∈ bytesOf text) : ByteClass.isNameByte b = true := by
    rw [hbytes] at hb
    obtain ⟨i, hi⟩ := List.mem_iff_getElem?.1 hb
    have hshort : i < stop - start := by
      have := (List.getElem?_eq_some_iff.1 hi).1
      rw [List.length_take] at this
      omega
    rw [List.getElem?_take_of_lt hshort, List.getElem?_drop, ← Source.byte?_eq_getElem?] at hi
    obtain ⟨b', hb', hclass⟩ := Source.byteIn_iff.1 (hin (start + i) (by omega) (by omega))
    rw [hi] at hb'
    cases hb'
    exact hclass
  constructor
  · rintro rfl
    have := Source.size_of_slice? htext
    have : ("" : String).utf8ByteSize = 0 := rfl
    omega
  · intro c hc
    obtain ⟨b, hb⟩ := List.exists_mem_of_ne_nil _ (String.utf8EncodeChar_ne_nil (c := c))
    have hmem : b ∈ bytesOf text := by
      rw [← String.ofList_toList (s := text), bytesOf_ofList]
      exact List.mem_flatMap.2 ⟨c, hc, hb⟩
    obtain ⟨a, ha, hascii, rfl⟩ := ByteClass.exists_wordy (hname b hmem)
    rw [eq_of_ascii_mem hascii hb]
    exact ha.imp_right .inl

/-- Names are words. -/
theorem Source.wordy_of_lexeme? {x : Lexeme} (h : src.lexeme? o = some x)
    (hk : x.kind = .identifier) : Wordy x.text := by
  have htext := text?_of_lexeme? h
  obtain ⟨hstart, hm, -⟩ := lexeme?_eq_some.1 h
  rw [hk] at htext hm
  rw [← hstart] at hm
  exact Literal.wordy_of_name (nameRule_eq_some.1 (Except.ok.inj hm)).1 htext

/-- Words with points between are one word. -/
theorem wordy_intercalate {path : List String} (hne : path ≠ []) (h : ∀ name ∈ path, Wordy name) :
    Wordy (".".intercalate path) := by
  induction path with
  | nil => exact absurd rfl hne
  | cons name path ih =>
      rw [List.forall_mem_cons] at h
      cases path with
      | nil =>
          rw [String.intercalate_singleton]
          exact h.1
      | cons next path =>
          obtain ⟨-, hrest⟩ := ih (List.cons_ne_nil _ _) h.2
          rw [String.intercalate_cons_cons]
          refine ⟨fun hempty => h.1.1 ?_, fun c hc => ?_⟩
          · simp only [String.append_eq_empty_iff] at hempty
            exact hempty.1.1
          · simp only [String.toList_append, List.mem_append] at hc
            rcases hc with (hc | hc) | hc
            · exact h.1.2 c hc
            · exact .inr (.inr (List.mem_singleton.1 hc))
            · exact hrest c hc

/-! ## Types -/

/-- A type all of whose texts are words, and whose requirements are in tables. -/
structure Ty.Spelled (t : Ty) : Prop where
  texts : t.Texts Wordy
  ordered : t.Ordered

namespace Ty

theorem spelled_leaf {claim : String} (h : Wordy claim) : (leaf claim).Spelled :=
  ⟨.intro h (fun _ hrow => by cases hrow) (fun _ hrow => by cases hrow), .nil, trivial⟩

/-- What is required of words, by words, is spelled in words. -/
theorem spelled_of_rows {claim : String} {rows : Table Ty} (hclaim : Wordy claim)
    (hordered : rows.Ordered) (hrows : ∀ row ∈ rows, Wordy row.1 ∧ row.2.Spelled) :
    (Ty.mk claim rows).Spelled :=
  ⟨.intro hclaim (fun row hrow => (hrows row hrow).1) fun row hrow => (hrows row hrow).2.texts,
    ordered_iff.2 ⟨hordered, fun row hrow => (hrows row hrow).2.ordered⟩⟩

theorem Spelled.require {t u : Ty} {name : String} (ht : t.Spelled) (hname : Wordy name)
    (hu : u.Spelled) : (t.require name u).Spelled := by
  obtain ⟨hclaim, hnames, hbelow⟩ := ht.texts
  obtain ⟨hrows, hordered⟩ := ordered_iff.1 ht.ordered
  refine spelled_of_rows hclaim (hrows.insert name u) fun row hrow => ?_
  rcases Table.mem_insert hrow with rfl | hrow
  · exact ⟨hname, hu⟩
  · exact ⟨hnames row hrow, hbelow row hrow, hordered row hrow⟩

end Ty

/-- The claims that productions assign are words, and so are the names that they require. -/
theorem wordy_of_assigned : ∀ text ∈ Claim.all ++ Requirement.all, Wordy text := by
  simp [Wordy, Claim.all, Requirement.all, Claim.absent, Claim.integer, Claim.string, Claim.list,
    Claim.map, Claim.function, Claim.typeAlias, Claim.typeIdentity, Claim.discard, Claim.module,
    Requirement.item, Requirement.input, Requirement.output, Requirement.target]

theorem Ty.spelled_absent : Ty.absent.Spelled :=
  spelled_leaf (wordy_of_assigned _ (by decide))

/-- A type that is missing is put in as the one that claims nothing. -/
theorem Ty.spelled_getD {t? : Option Ty} (h : ∀ t ∈ t?, t.Spelled) :
    (t?.getD .absent).Spelled := by
  cases t? with
  | none => exact spelled_absent
  | some t => exact h t rfl

/-! ## Nodes and drafts -/

/-- The types that a node has. -/
def Node.types (n : Node) : List Ty :=
  n.selfType :: (n.inType.toList ++ n.outType.toList)

/-- A tree in which all types are spelled in words. -/
def Node.Spelled (n : Node) : Prop :=
  n.Everywhere fun m => ∀ t ∈ m.types, t.Spelled

theorem Node.Spelled.selfType {n : Node} (h : n.Spelled) : n.selfType.Spelled :=
  (Node.everywhere_iff.1 h).1 _ List.mem_cons_self

theorem Node.Spelled.children {n : Node} (h : n.Spelled) : ∀ c ∈ n.children, c.Spelled :=
  (Node.everywhere_iff.1 h).2

/-- A draft in which all is spelled in words that will be in types. -/
structure Draft.Spelled (d : Draft) : Prop where
  selfType : ∀ t ∈ d.selfType, t.Spelled
  inType : ∀ t ∈ d.inType, t.Spelled
  outType : ∀ t ∈ d.outType, t.Spelled
  payload : ∀ p ∈ d.payload, ∀ c ∈ p.children, c.Spelled
  children : ∀ c ∈ d.children.toList, c.Spelled
  names : ∀ name ∈ d.names.toList, Wordy name
  entries : ∀ row ∈ d.entries.toList, Wordy row.1 ∧ row.2.Spelled

theorem forall_mem_push {α : Type} {p : α → Prop} {a : Array α} {x : α}
    (h : ∀ y ∈ a.toList, p y) (hx : p x) : ∀ y ∈ (a.push x).toList, p y := by
  rw [Array.toList_push]
  exact List.forall_mem_append.2 ⟨h, List.forall_mem_singleton.2 hx⟩

namespace Draft

variable {d : Draft}

theorem spelled_blank : blank.Spelled := by
  constructor <;> simp [blank]

theorem Spelled.finish (h : d.Spelled) (span : Span) : (d.finish span).Spelled := by
  refine Node.everywhere_iff.2 ⟨fun t ht => ?_, fun c hc => ?_⟩
  · simp only [Node.types, List.mem_cons, List.mem_append, Option.mem_toList] at ht
    rcases ht with rfl | ht | ht
    · exact Ty.spelled_getD h.selfType
    · exact h.inType t ht
    · exact h.outType t ht
  · cases hd : d.payload with
    | none =>
        simp only [Node.children, Draft.finish, hd, Option.getD_none] at hc
        cases hc
    | some p =>
        simp only [Node.children, Draft.finish, hd, Option.getD_some] at hc
        exact h.payload p hd c hc

theorem Spelled.complete (h : d.Spelled) {p : Payload Node} {t : Ty}
    (hp : ∀ c ∈ p.children, c.Spelled) (ht : t.Spelled) : (d.complete p t).Spelled :=
  { h with
    selfType := by
      rintro _ ⟨⟩
      exact ht
    payload := by
      rintro _ ⟨⟩
      exact hp }

end Draft

/-! ## What edits and patterns lead to -/

/-- An edit that makes of a draft of one sort a draft of another. -/
def Edit.Leads (I J : Draft → Prop) (edit : Edit) : Prop :=
  ∀ ⦃d d'⦄, edit d = .ok () d' → I d → J d'

theorem Edit.Leads.modify {I J : Draft → Prop} {f : Draft → Draft} (h : ∀ d, I d → J (f d)) :
    Edit.Leads I J (modify f) := by
  intro d d' hok hd
  cases hok
  exact h d hd

namespace Pattern

variable {ν : Type} {R : ν → Trace} {p q : Pattern ν} {ps : List (Pattern ν)}
  {I J K : Draft → Prop}

/-- A pattern that makes of a draft of one sort a draft of another where it is there. -/
def Leads (src : Source) (R : ν → Trace) (I J : Draft → Prop) (p : Pattern ν) : Prop :=
  ∀ ⦃o d o' d'⦄, p.Traces src R o d o' d' → I d → J d'

theorem expect_leads (kind : TokenKind) : (expect kind).Leads src R I I := by
  intro o d o' d' htrace hd
  obtain ⟨-, rfl⟩ := Grammar.traces_expect htrace
  exact hd

/-- A name is a word. -/
theorem name_leads {note : Lexeme → Edit} (h : ∀ x : Lexeme, Wordy x.text → (note x).Leads I J) :
    (token .identifier note).Leads src R I J := by
  intro o d o' d' htrace hd
  obtain ⟨x, hx, hk, -, hnote⟩ := htrace
  exact h x (Source.wordy_of_lexeme? hx hk) hnote hd

theorem andThen_leads (hp : p.Leads src R I J) (hq : q.Leads src R J K) :
    (andThen p q).Leads src R I K := by
  intro o d o' d' htrace hd
  obtain ⟨m, e, hptrace, hqtrace⟩ := htrace
  exact hq hqtrace (hp hptrace hd)

theorem done_leads : (done : Pattern ν).Leads src R I I := by
  intro o d o' d' htrace hd
  obtain ⟨-, rfl⟩ := htrace
  exact hd

theorem sequence_leads (h : ps.Forall (Leads src R I I)) : (sequence ps).Leads src R I I := by
  induction ps with
  | nil => exact done_leads
  | cons p ps ih =>
      rw [List.forall_cons] at h
      exact andThen_leads h.1 (ih h.2)

theorem firstOf_leads (h : ps.Forall (Leads src R I J)) : (firstOf ps).Leads src R I J := by
  intro o d o' d' htrace hd
  obtain ⟨p, hp, htrace⟩ := traces_firstOf.1 htrace
  exact List.forall_iff_forall_mem.1 h p hp htrace hd

theorem optional_leads (h : p.Leads src R I I) : (optional p).Leads src R I I := by
  intro o d o' d' htrace hd
  rcases htrace with htrace | ⟨-, rfl⟩
  · exact h htrace hd
  · exact hd

theorem star_leads {Q : Trace} (h : ∀ ⦃o d o' d'⦄, Q o d o' d' → I d → I d') {d d' : Draft}
    (hstar : Trace.Star Q o d o' d') (hd : I d) : I d' := by
  induction hstar with
  | refl o d => exact hd
  | step head _ ih => exact ih (h head hd)

theorem many_leads (h : p.Leads src R I I) : (many p).Leads src R I I :=
  fun _ _ _ _ htrace hd => star_leads h htrace hd

theorem separated_leads (h : p.Leads src R I I) (separator : TokenKind) :
    (separated p separator).Leads src R I I := by
  intro o d o' d' htrace hd
  rcases htrace with ⟨-, rfl⟩ | ⟨m, e, m', hfirst, hmore, -⟩
  · exact hd
  · refine star_leads (fun _ _ _ _ hsep => ?_) hmore (h hfirst hd)
    obtain ⟨m, -, hitem⟩ := hsep
    exact h hitem

/-- What is under construction inside is of a sort of its own. -/
theorem child_leads {attach : Node → Edit} {L : Draft → Prop} (h : p.Leads src R L K)
    (hblank : L .blank) (hattach : ∀ e, K e → ∀ span, (attach (e.finish span)).Leads I J) :
    (child p attach).Leads src R I J := by
  intro o d o' d' htrace hd
  obtain ⟨e, he, hok⟩ := htrace
  exact hattach e (h he hblank) _ hok hd

theorem andEdit_leads {edit : Draft → Draft → Draft} (h : p.Leads src R I J)
    (hedit : ∀ before d, J d → K (edit before d)) :
    (andEdit p fun before => modify (edit before)).Leads src R I K := by
  intro o d o' d' htrace hd
  obtain ⟨e, he, hok⟩ := htrace
  exact Edit.Leads.modify (hedit d) hok (h he hd)

end Pattern

/-! ## What completes a draft -/

namespace Draft

variable {d : Draft}

/-- What has nothing inside requires nothing. -/
theorem Spelled.completeLeaf (h : d.Spelled) {p : Payload Node} (hp : p.children = [])
    {claim : String} (hclaim : Wordy claim) : (d.complete p (.leaf claim)).Spelled := by
  refine h.complete ?_ (Ty.spelled_leaf hclaim)
  rw [hp]
  exact List.forall_mem_nil _

theorem Spelled.pushChild {n : Node} (hn : n.Spelled) :
    (Draft.pushChild n).Leads Spelled Spelled :=
  .modify fun _ hd => { hd with children := forall_mem_push hd.children hn }

theorem Spelled.completeList (h : d.Spelled) : d.completeList.Spelled := by
  rw [Node.completeList_eq]
  have hrest : Spelled { d with children := #[] } := { h with children := by simp }
  refine hrest.complete h.children ((Ty.spelled_leaf (wordy_of_assigned _ (by decide))).require
    (wordy_of_assigned _ (by decide)) ?_)
  cases hitems : d.children.toList with
  | nil => exact Ty.spelled_absent
  | cons first rest => exact (h.children first (hitems ▸ List.mem_cons_self)).selfType

theorem Spelled.entriesType (h : d.Spelled) {claim : String} (hclaim : Wordy claim) :
    (entriesType claim d.entryTable).Spelled := by
  refine Ty.spelled_of_rows hclaim ?_ fun row hrow => ?_
  · rw [Table.Ordered, Table.names_mapValues]
    exact Table.ordered_ofRows _
  · obtain ⟨entry, hentry, rfl⟩ := List.mem_map.1 hrow
    obtain ⟨hkey, hnode⟩ := h.entries entry (Table.mem_ofRows entry hentry)
    exact ⟨hkey, hnode.selfType⟩

theorem Spelled.of_mem_entryTable (h : d.Spelled) : ∀ n ∈ Table.values d.entryTable, n.Spelled :=
  Node.of_mem_entryTable fun row hrow => (h.entries row hrow).2

theorem Spelled.completeMap (h : d.Spelled) : d.completeMap.Spelled := by
  have hrest : Spelled { d with entries := #[] } := { h with entries := by simp }
  exact hrest.complete h.of_mem_entryTable (h.entriesType (wordy_of_assigned _ (by decide)))

theorem Spelled.completeModule (h : d.Spelled) : d.completeModule.Spelled := by
  have hrest : Spelled { d with entries := #[], usings := #[] } := { h with entries := by simp }
  exact hrest.complete h.of_mem_entryTable (h.entriesType (wordy_of_assigned _ (by decide)))

/-- A chain that has a name is completed as a word. -/
theorem Spelled.completeChain (h : d.Spelled) (hne : d.names ≠ #[]) : d.completeChain.Spelled := by
  have hrest : Spelled { d with names := #[] } := { h with names := by simp }
  exact hrest.completeLeaf rfl (wordy_intercalate (by simpa using hne) h.names)

/-- A value behind a mark requires what is marked. -/
theorem Spelled.completeWrapped (h : d.Spelled) {target : Node}
    (htarget : d.children.back? = some target) {p : Payload Node} (hp : p.children = [target])
    {claim : String} (hclaim : Wordy claim) :
    ({ d with children := d.children.pop }.complete p
      ((Ty.leaf claim).require Requirement.target target.selfType)).Spelled := by
  have hspelled : target.Spelled := by
    obtain ⟨init, hinit⟩ := Array.back?_eq_some_iff.1 htarget
    exact h.children target (by simp [hinit])
  have hrest : Spelled { d with children := d.children.pop } :=
    { h with
      children := fun c hc => h.children c (List.dropLast_subset _ (by simpa using hc)) }
  refine hrest.complete ?_ ((Ty.spelled_leaf hclaim).require (wordy_of_assigned _ (by decide))
    hspelled.selfType)
  rw [hp]
  exact List.forall_mem_singleton.2 hspelled

theorem Spelled.completeTypeAlias (h : d.Spelled) : d.completeTypeAlias.Spelled := by
  rw [Draft.completeTypeAlias]
  split
  · exact h
  · next target htarget => exact h.completeWrapped htarget rfl (wordy_of_assigned _ (by decide))

theorem Spelled.completeTypeIdentity (h : d.Spelled) : d.completeTypeIdentity.Spelled := by
  rw [Draft.completeTypeIdentity]
  split
  · exact h
  · next target htarget => exact h.completeWrapped htarget rfl (wordy_of_assigned _ (by decide))

theorem Spelled.completeFunction (h : d.Spelled) : d.completeFunction.Spelled := by
  have hsteps := h.children
  generalize hlist : d.children.toList = steps at hsteps
  have hin : ∀ t ∈ d.inType.or (stepsInput? steps), t.Spelled := by
    intro t ht
    rcases Option.or_eq_some_iff.1 ht with ht | ⟨-, ht⟩
    · exact h.inType t ht
    · obtain ⟨first, hfirst, rfl⟩ := Option.map_eq_some_iff.1 ht
      have hspelled := hsteps first (List.mem_of_head? hfirst)
      cases hedge : first.inType with
      | none => exact hspelled.selfType
      | some t => exact (Node.everywhere_iff.1 hspelled).1 t (by simp [Node.types, hedge])
  have hout : ∀ t ∈ d.outType.or (stepsOutput? steps), t.Spelled := by
    intro t ht
    rcases Option.or_eq_some_iff.1 ht with ht | ⟨-, ht⟩
    · exact h.outType t ht
    · obtain ⟨last, hlast, rfl⟩ := Option.map_eq_some_iff.1 ht
      exact (hsteps last (List.mem_of_getLast? hlast)).selfType
  have hrest : Spelled { d with children := #[], inType := d.inType.or (stepsInput? steps),
                                outType := d.outType.or (stepsOutput? steps) } :=
    { h with children := by simp, inType := hin, outType := hout }
  rw [Draft.completeFunction, takeChildren, hlist]
  refine hrest.complete hsteps (((Ty.spelled_leaf ?_).require ?_ (Ty.spelled_getD hin)).require ?_
    (Ty.spelled_getD hout))
  all_goals exact wordy_of_assigned _ (by decide)

theorem Spelled.completeTypeParameter (h : d.Spelled) : d.completeTypeParameter.Spelled := by
  have hrest : Spelled { d with children := #[] } := { h with children := by simp }
  rw [Draft.completeTypeParameter, takeChildren]
  split
  · next input output target rest _ hchildren =>
      obtain ⟨hlist, rfl⟩ := Prod.mk.inj hchildren
      have hmem := h.children
      rw [hlist] at hmem
      simp only [List.forall_mem_cons] at hmem
      obtain ⟨hinput, houtput, htarget, -⟩ := hmem
      have hedges : Spelled { d with children := #[], inType := some input.selfType,
                                     outType := some output.selfType } :=
        { hrest with
          inType := by
            rintro _ ⟨⟩
            exact hinput.selfType
          outType := by
            rintro _ ⟨⟩
            exact houtput.selfType }
      exact hedges.complete htarget.children htarget.selfType
  · next hchildren =>
      rw [← (Prod.mk.inj hchildren).2]
      exact hrest

theorem Spelled.reverseChildrenFrom (h : d.Spelled) (kept : Nat) :
    (d.reverseChildrenFrom kept).Spelled :=
  { h with
    children := by
      intro c hc
      have hmem : c ∈ d.children.toList.take kept ∨
          c ∈ (d.children.toList.drop kept).take (d.children.size - kept) := by
        simpa [Draft.reverseChildrenFrom] using hc
      rcases hmem with hmem | hmem
      · exact h.children c (List.mem_of_mem_take hmem)
      · exact h.children c (List.mem_of_mem_drop (List.mem_of_mem_take hmem)) }

theorem attachNumeral_leads (text : String) (span : Span) :
    (attachNumeral text span).Leads Spelled Spelled := by
  rw [attachNumeral]
  split
  · exact .modify fun d hd => hd.completeLeaf rfl (wordy_of_assigned _ (by decide))
  · intro d d' hok
    cases hok

theorem attachUsing_leads (chain : Node) : (attachUsing chain).Leads Spelled Spelled := by
  rw [attachUsing]
  split
  · exact .modify fun d hd => { hd with }
  · exact .modify fun d hd => hd

/-- A draft with a key that waits for its value. -/
def Keyed (d : Draft) : Prop :=
  ∃ (before : Draft) (key : String) (span : Span), before.Spelled ∧ Wordy key ∧
    d = { before with keys := before.keys.push (key, span) }

theorem attachEntry_leads {n : Node} (hn : n.Spelled) : (attachEntry n).Leads Keyed Spelled := by
  rintro _ d' hok ⟨before, key, span, hbefore, hkey, rfl⟩
  obtain ⟨-, rfl⟩ := attachEntry_of_pushKey.1 hok
  exact { hbefore with entries := forall_mem_push hbefore.entries ⟨hkey, hn⟩ }

end Draft

/-! ## The grammar -/

namespace Grammar

open Pattern Draft

variable {ν : Type} {R : ν → Trace} {inner : Pattern ν}

theorem nested_leads (h : inner.Leads src R Spelled Spelled) :
    (nested inner).Leads src R Spelled Spelled :=
  child_leads h spelled_blank fun _ he span => Spelled.pushChild (he.finish span)

/-- The key is noted, and waits for its value until that is read. -/
theorem entry_leads (h : inner.Leads src R Spelled Spelled) :
    (entry inner).Leads src R Spelled Spelled := by
  have hkey : (token .identifier fun x => pushKey x.text x.span : Pattern ν).Leads src R
      Spelled Keyed :=
    name_leads fun x hx => .modify fun d hd => ⟨d, x.text, x.span, hd, hx, rfl⟩
  have hvalue : (child inner attachEntry).Leads src R Keyed Spelled :=
    child_leads h spelled_blank fun _ he span => attachEntry_leads (he.finish span)
  exact andThen_leads hkey (andThen_leads (expect_leads _) (andThen_leads hvalue done_leads))

theorem clause_leads (h : inner.Leads src R Spelled Spelled) :
    (clause inner).Leads src R Spelled Spelled :=
  andEdit_leads (many_leads (nested_leads h)) fun before _ hd =>
    hd.reverseChildrenFrom before.children.size

theorem signature_leads : (signature : Pattern ν).Leads src R Spelled Spelled := by
  refine sequence_leads ⟨expect_leads _, name_leads fun x hx => .modify fun d hd => ?_,
    name_leads fun x hx => .modify fun d hd => ?_, expect_leads _⟩
  · exact { hd with
            inType := by
              rintro _ ⟨⟩
              exact Ty.spelled_leaf hx }
  · exact { hd with
            outType := by
              rintro _ ⟨⟩
              exact Ty.spelled_leaf hx }

theorem wrapped_leads (h : inner.Leads src R Spelled Spelled) (m : Symbol) (w : Keyword) :
    (wrapped inner m w).Leads src R Spelled Spelled :=
  sequence_leads ⟨firstOf_leads ⟨expect_leads _, expect_leads _⟩, nested_leads h⟩

/-- A chain has at least the name with which it begins. -/
theorem identifierChain_leads : (identifierChain : Pattern ν).Leads src R Spelled Spelled := by
  have hname {I : Draft → Prop} (hI : ∀ d, I d → d.Spelled) : (segment : Pattern ν).Leads src R I
      fun d => d.Spelled ∧ d.names ≠ #[] := by
    refine name_leads fun x hx => .modify fun d hd => ⟨?_, by simp⟩
    exact { hI d hd with names := forall_mem_push (hI d hd).names hx }
  refine andEdit_leads (andThen_leads (hname fun _ hd => hd)
    (andThen_leads (many_leads ?_) done_leads)) fun _ d hd => hd.1.completeChain hd.2
  exact andThen_leads (expect_leads _) (andThen_leads (hname fun _ hd => hd.1) done_leads)

theorem value_leads (h : inner.Leads src R Spelled Spelled) :
    (value inner).Leads src R Spelled Spelled := by
  refine firstOf_leads ⟨?_, ?_, ?_, ?_, ?_, ?_, ?_, ?_, identifierChain_leads, ?_⟩
  · exact andEdit_leads (sequence_leads ⟨expect_leads _, separated_leads (nested_leads h) _,
      expect_leads _⟩) fun _ _ hd => hd.completeList
  · exact andEdit_leads (sequence_leads ⟨expect_leads _, many_leads (entry_leads h),
      expect_leads _⟩) fun _ _ hd => hd.completeMap
  · exact andEdit_leads (sequence_leads ⟨optional_leads (expect_leads _), expect_leads _,
      optional_leads signature_leads, clause_leads h,
      many_leads (sequence_leads ⟨expect_leads _, clause_leads h⟩), expect_leads _⟩)
      fun _ _ hd => hd.completeFunction
  · exact andEdit_leads (sequence_leads ⟨expect_leads _, nested_leads h, expect_leads _,
      nested_leads h, expect_leads _, nested_leads h⟩) fun _ _ hd => hd.completeTypeParameter
  · exact andEdit_leads (wrapped_leads h _ _) fun _ _ hd => hd.completeTypeAlias
  · exact andEdit_leads (wrapped_leads h _ _) fun _ _ hd => hd.completeTypeIdentity
  · exact andEdit_leads (expect_leads _) fun _ _ hd => hd.completeLeaf rfl (wordy_of_assigned _ (by decide))
  · rintro o d o' d' ⟨x, -, -, -, hnote⟩ hd
    exact attachNumeral_leads x.text x.span hnote hd
  · rintro o d o' d' ⟨x, -, -, -, hnote⟩ hd
    exact Edit.Leads.modify (fun d hd => hd.completeLeaf rfl (wordy_of_assigned _ (by decide))) hnote hd

theorem leaves_leads (levels : Nat) {d d' : Draft} (h : Leaves src levels o d o' d')
    (hd : d.Spelled) : d'.Spelled := by
  induction levels generalizing o d o' d' with
  | zero => exact h.elim
  | succ levels ih =>
      have hinner : (ref Nonterminal.value).Leads src (fun _ => Leaves src levels)
          Spelled Spelled :=
        fun _ _ _ _ => ih
      exact value_leads hinner h hd

theorem module_leads (h : inner.Leads src R Spelled Spelled) :
    («module» inner).Leads src R Spelled Spelled := by
  have huse : (useStatement : Pattern ν).Leads src R Spelled Spelled :=
    sequence_leads ⟨expect_leads _, child_leads identifierChain_leads spelled_blank
      fun _ _ span => attachUsing_leads _⟩
  have hend : (endOfInput : Pattern ν).Leads src R Spelled Spelled := by
    rintro o d o' d' ⟨-, -, rfl⟩ hd
    exact hd
  exact andEdit_leads (sequence_leads ⟨many_leads huse, many_leads (entry_leads h), hend⟩)
    fun _ _ hd => hd.completeModule

end Grammar

/-- The types in a tree that was parsed are spelled in words, all of them. -/
theorem Node.spelled_of_parse {goal : Goal} {l : Limits} {p : Parsed}
    (h : parse goal src l = .ok p) : p.node.Spelled := by
  obtain ⟨levels, stop, d, hleaves, hnode⟩ := leaves_of_parse h
  have hvalue : (Pattern.ref Nonterminal.value).Leads src (fun _ => Grammar.Leaves src levels)
      Draft.Spelled Draft.Spelled :=
    fun _ _ _ _ => Grammar.leaves_leads levels
  have hd : d.Spelled := by
    cases goal with
    | module => exact Grammar.module_leads hvalue hleaves Draft.spelled_blank
    | value =>
        obtain ⟨m, e, he, _, _, ⟨_, ⟨-, -, rfl⟩, rfl⟩, rfl, rfl⟩ := hleaves
        exact Grammar.value_leads hvalue he Draft.spelled_blank
  rw [hnode]
  exact hd.finish _

/-- Types are shown faithfully. If they have no blank, comma or colon in their texts, then
those that are shown alike are the same; and those that claim the same at the end of every path
of requirements are shown alike, whatever was added and replaced in which order to make them.
In a tree that was parsed all texts of all types are words, so that each of its types is the
only one that is shown as it is. -/
theorem types_shown_faithfully :
    (∀ text, Wordy text → Plain text) ∧
    (∀ t u : Ty, t.Texts Plain → u.Texts Plain → t.render = u.render → t = u) ∧
    (∀ t u : Ty, t.Composed → u.Composed → (∀ path, t.claimAt? path = u.claimAt? path) →
      t.render = u.render) ∧
    ∀ (goal : Goal) (src : Source) (l : Limits) (p : Parsed), parse goal src l = .ok p →
      ∀ n ∈ p.node.subtree, ∀ t ∈ n.types, t.Texts Wordy ∧ t.Composed ∧
        ∀ u : Ty, u.Texts Plain → u.render = t.render → u = t := by
  refine ⟨fun _ => Wordy.plain, fun t u ht hu => Ty.eq_of_render ht hu,
    fun t u ht hu hclaims => ?_, fun goal src l p hok n hn t ht => ?_⟩
  · rw [Ty.eq_of_claims (Ty.composed_iff.1 ht) (Ty.composed_iff.1 hu) hclaims]
  · have hspelled : t.Spelled := Node.spelled_of_parse hok n hn t ht
    have hplain : t.Texts Plain := hspelled.texts.mono fun _ => Wordy.plain
    exact ⟨hspelled.texts, Ty.composed_iff.2 hspelled.ordered, fun u hu => Ty.eq_of_render hu hplain⟩

/-- A list of a chain, and edges that were given in one order and in the other, one of them
twice. -/
theorem types_shown_faithfully_chain :
    (∃ p, parse .value ⟨"[a.b_1]"⟩ = .ok p ∧
      p.node.selfType.render = "List \x7b item: a.b_1 \x7d" ∧
      ∀ u : Ty, u.Texts Plain → u.render = "List \x7b item: a.b_1 \x7d" →
        u = (Ty.leaf "List").require "item" (.leaf "a.b_1")) ∧
    (((Ty.leaf "F").require "out" (.leaf "A")).require "in" (.leaf "B")).render =
      ((((Ty.leaf "F").require "in" .absent).require "out" (.leaf "A")).require "in"
        (.leaf "B")).render := by
  obtain ⟨-, -, hmade, hparsed⟩ := types_shown_faithfully
  constructor
  · let t : Ty := ⟨Claim.list, [(Requirement.item, .leaf "a.b_1")]⟩
    let item : Node := ⟨.leaf "a.b_1", none, none, ⟨1, 6⟩, .identifierChain ["a", "b_1"]⟩
    let root : Node := ⟨t, none, none, ⟨0, 7⟩, .list [item]⟩
    have hok : parse .value ⟨"[a.b_1]"⟩ = .ok ⟨root, []⟩ := by cbv
    have hroot : root ∈ root.subtree := by
      rw [Node.subtree_eq]
      exact List.mem_cons_self
    have hshown : t.render = "List \x7b item: a.b_1 \x7d" := by cbv
    refine ⟨⟨root, []⟩, hok, hshown, fun u hu hrender => ?_⟩
    exact (hparsed _ _ _ _ hok root hroot t List.mem_cons_self).2.2 u hu (hrender.trans hshown.symm)
  · refine hmade _ _ (.require (.require (.leaf _) _ (.leaf _)) _ (.leaf _))
      (.require (.require (.require (.leaf _) _ (.leaf _)) _ (.leaf _)) _ (.leaf _)) fun path => ?_
    rw [show ((Ty.leaf "F").require "out" (.leaf "A")).require "in" (.leaf "B") =
      (((Ty.leaf "F").require "in" .absent).require "out" (.leaf "A")).require "in" (.leaf "B")
      by decide]

end WeLang
