import Mathlib
import WeLang.Proofs.Leaving

/-!
# The types of a tree

What a node is says what type it has (`Payload.Dictates`). Every production takes the
type of the node it makes from what it has gathered, so in a tree that was parsed each
node is of the type that it should have, and its edges are where they should be
(`Node.Typed`).

The one production that does not say what its node is is the type parameter: it takes
payload and type of the value behind it over, and gives it other edges. Since what a
payload dictates does not depend on edges, the type is still right; and that the edges
were given and not found can be seen from the bracket with which the node begins.
-/

namespace WeLang

variable {src : Source} {o o' : Nat}

/-! ## Tables of rows -/

namespace Table

variable {α β : Type}

theorem mem_insert {name : String} {x : α} {table : Table α} {row : String × α}
    (h : row ∈ table.insert name x) : row = (name, x) ∨ row ∈ table := by
  induction table with
  | nil => exact .inl (List.mem_singleton.1 h)
  | cons first rows ih =>
      rw [insert] at h
      split at h
      · exact List.mem_cons.1 h
      · split at h
        · exact (List.mem_cons.1 h).imp_right (List.mem_cons_of_mem _)
        · rcases List.mem_cons.1 h with rfl | h
          · exact .inr (List.mem_cons_self ..)
          · exact (ih h).imp_right (List.mem_cons_of_mem _)

theorem ordered_cons {row : String × α} {rows : Table α} :
    Ordered (row :: rows) ↔ (∀ other ∈ rows, row.1 < other.1) ∧ rows.Ordered := by
  simp [Ordered, names]

theorem Ordered.insert {table : Table α} (h : table.Ordered) (name : String) (x : α) :
    (table.insert name x).Ordered := by
  induction table with
  | nil => simp [Table.insert, Ordered, names]
  | cons row rows ih =>
      obtain ⟨hfirst, hrest⟩ := ordered_cons.1 h
      rw [Table.insert]
      split
      · next hlt =>
          refine ordered_cons.2 ⟨fun other hmem => ?_, h⟩
          rcases List.mem_cons.1 hmem with rfl | hmem
          · exact hlt
          · exact lt_trans hlt (hfirst other hmem)
      · next hnot =>
          split
          · next heq =>
              refine ordered_cons.2 ⟨fun other hmem => ?_, hrest⟩
              rw [heq]
              exact hfirst other hmem
          · next hne =>
              refine ordered_cons.2 ⟨fun other hmem => ?_, ih hrest⟩
              rcases mem_insert hmem with rfl | hmem
              · exact lt_of_le_of_ne (not_lt.1 hnot) (Ne.symm hne)
              · exact hfirst other hmem

theorem ofRows_concat (rows : List (String × α)) (row : String × α) :
    ofRows (rows ++ [row]) = (ofRows rows).insert row.1 row.2 :=
  List.foldl_append ..

/-- What the empty table has and every insertion keeps, the table of a list of rows has. -/
theorem ofRows_induction {motive : Table α → Prop} {rows : List (String × α)} (nil : motive [])
    (insert : ∀ row ∈ rows, ∀ table, motive table → motive (table.insert row.1 row.2)) :
    motive (ofRows rows) :=
  List.foldlRecOn rows _ nil fun table htable row hrow => insert row hrow table htable

theorem ordered_ofRows (rows : List (String × α)) : Ordered (ofRows rows) :=
  ofRows_induction List.Pairwise.nil fun row _ _ h => h.insert row.1 row.2

theorem mem_ofRows {rows : List (String × α)} : ∀ row ∈ ofRows rows, row ∈ rows := by
  refine ofRows_induction (motive := fun table => ∀ row ∈ table, row ∈ rows)
    (fun _ h => nomatch h) ?_
  intro row hrow table htable other hother
  rcases mem_insert hother with rfl | hother
  · exact hrow
  · exact htable other hother

/-- Rows under different names may be put in in any order. -/
theorem insert_comm {name other : String} (h : name ≠ other) (x y : α) (table : Table α) :
    (table.insert name x).insert other y = (table.insert other y).insert name x := by
  induction table with
  | nil =>
      rcases lt_or_gt_of_ne h with hlt | hlt
      · simp [insert, hlt, h.symm, not_lt_of_gt hlt]
      · simp [insert, hlt, h, not_lt_of_gt hlt]
  | cons row rows ih =>
      grind [insert]

/-- The table of rows with different names does not depend on their order. -/
theorem ofRows_perm {rows rows' : List (String × α)} (h : rows.Perm rows')
    (hnodup : (rows.map Prod.fst).Nodup) : ofRows rows = ofRows rows' := by
  refine h.foldl_eq' (fun row hrow row' hrow' table => ?_) []
  by_cases heq : row = row'
  · rw [heq]
  · have hne : row.1 ≠ row'.1 := fun hname => heq (List.inj_on_of_nodup_map hnodup hrow hrow' hname)
    exact insert_comm hne row.2 row'.2 table

/-- A name behind all others is put in at the end. -/
theorem insert_of_forall_lt {name : String} {table : Table α} (h : ∀ row ∈ table, row.1 < name)
    (x : α) : table.insert name x = table ++ [(name, x)] := by
  induction table with
  | nil => rfl
  | cons row rows ih =>
      rw [List.forall_mem_cons] at h
      rw [insert, if_neg (not_lt_of_gt h.1), if_neg (ne_of_gt h.1), ih h.2, List.cons_append]

/-- A table is the table of its rows, in whatever order they are taken. -/
theorem Ordered.ofRows_of_perm {table : Table α} (h : table.Ordered) {rows : List (String × α)}
    (hperm : rows.Perm table) : ofRows rows = table := by
  have hself : ofRows table = table := by
    clear hperm
    induction table using List.reverseRecOn with
    | nil => rfl
    | append_singleton rows row ih =>
        rw [Ordered, names, List.map_append, List.pairwise_append] at h
        obtain ⟨hrows, -, hlast⟩ := h
        have hlt : ∀ other ∈ rows, other.1 < row.1 := fun other hother =>
          hlast _ (List.mem_map_of_mem hother) _ (List.mem_singleton_self _)
        rw [ofRows_concat, ih hrows, insert_of_forall_lt hlt]
  have hnodup : (rows.map Prod.fst).Nodup :=
    (hperm.map Prod.fst).nodup_iff.2 (h.imp ne_of_lt)
  rw [ofRows_perm hperm hnodup, hself]

theorem get?_mapValues (f : α → β) (table : Table α) (name : String) :
    (table.mapValues f).get? name = (table.get? name).map f := by
  induction table with
  | nil => rfl
  | cons row rows ih =>
      obtain ⟨key, x⟩ := row
      simp only [get?, mapValues, List.map_cons, List.lookup_cons] at ih ⊢
      rw [ih]
      cases name == key <;> rfl

end Table

/-! ## What a type should be -/

/-- A type that requires one thing and no other. -/
def Ty.RequiresOnly (t : Ty) (claim name : String) (u : Ty) : Prop :=
  t.claim = claim ∧ t.requirementNames = [name] ∧ t.requirement? name = some u

/-- A type that requires of every key of a table the type of what has this key, and
nothing of any other key. -/
def Ty.RequiresEach (t : Ty) (claim : String) (entries : Table Node) : Prop :=
  t.claim = claim ∧ entries.Ordered ∧ t.requirementNames = entries.names ∧
    ∀ key, t.requirement? key = (entries.get? key).map Node.selfType

/-- Whether a type is the one that a payload should have. -/
def Payload.Dictates : Payload Node → Ty → Prop
  | .module _ entries, t => t.RequiresEach Claim.module entries
  | .list items, t => t.RequiresOnly Claim.list Requirement.item
      ((items.head?.map Node.selfType).getD .absent)
  | .map entries, t => t.RequiresEach Claim.map entries
  | .function _, t => t.claim = Claim.function ∧
      t.requirementNames = [Requirement.input, Requirement.output]
  | .typeAlias target, t => t.RequiresOnly Claim.typeAlias Requirement.target target.selfType
  | .typeIdentity target, t =>
      t.RequiresOnly Claim.typeIdentity Requirement.target target.selfType
  | .discard, t => t = .leaf Claim.discard
  | .integer _, t => t = .leaf Claim.integer
  | .identifierChain path, t => path ≠ [] ∧ t = .leaf (".".intercalate path)
  | .string _, t => t = .leaf Claim.string

/-- The edges of a function are what its type requires, and nothing else has edges. -/
def Node.EdgesFollow (n : Node) : Prop :=
  match n.payload with
  | .function _ =>
      n.selfType.requirement? Requirement.input = some (n.inType.getD .absent) ∧
        n.selfType.requirement? Requirement.output = some (n.outType.getD .absent)
  | _ => n.inType = none ∧ n.outType = none

/-- A node whose types are what they should be. What stands behind edges of its own may
have others than those that follow from what it is. -/
structure Node.Typed (src : Source) (n : Node) : Prop where
  selfType : n.payload.Dictates n.selfType
  edges : n.inType.isSome = n.outType.isSome
  follow : src.byte? n.span.start ≠ some '<'.toUInt8 → n.EdgesFollow

/-- A tree in which the types of all nodes are what they should be. -/
def Node.WellTyped (src : Source) (n : Node) : Prop :=
  ∀ m ∈ n.subtree, m.Typed src

/-- A property that a node and everything below it have. -/
def Node.Everywhere (P : Node → Prop) (n : Node) : Prop :=
  ∀ m ∈ n.subtree, P m

theorem Node.everywhere_iff {P : Node → Prop} {n : Node} :
    n.Everywhere P ↔ P n ∧ ∀ c ∈ n.children, c.Everywhere P := by
  simp only [Everywhere]
  rw [subtree_eq]
  simp only [List.forall_mem_cons, List.mem_flatMap]
  exact and_congr_right' ⟨fun h c hc m hm => h m ⟨c, hc, hm⟩, fun h m ⟨c, hc, hm⟩ => h c hc m hm⟩

theorem Node.wellTyped_iff {n : Node} :
    n.WellTyped src ↔ n.Typed src ∧ ∀ c ∈ n.children, c.WellTyped src :=
  everywhere_iff

/-! ## Types that are what they should be -/

theorem Ty.requiresOnly_require (claim name : String) (u : Ty) :
    ((Ty.leaf claim).require name u).RequiresOnly claim name u :=
  ⟨rfl, rfl, requirement?_require_self ..⟩

theorem Ty.requirementNames_edges (claim : String) (input output : Ty) :
    (((Ty.leaf claim).require Requirement.input input).require Requirement.output
      output).requirementNames = [Requirement.input, Requirement.output] := by
  have hlt : ¬ Requirement.output < Requirement.input := by decide
  have hne : Requirement.output ≠ Requirement.input := by decide
  simp [require, leaf, requirementNames, Table.insert, Table.names, hlt, hne]

theorem Draft.requiresEach_entriesType (claim : String) (d : Draft) :
    (entriesType claim d.entryTable).RequiresEach claim d.entryTable :=
  ⟨rfl, Table.ordered_ofRows _, Table.names_mapValues _ _, Table.get?_mapValues _ _⟩

/-! ## Productions -/

namespace Node

variable {d : Draft} {span : Span} {r : Span → Span → Prop}

theorem of_mem_entryTable {P : Node → Prop} (h : ∀ row ∈ d.entries.toList, P row.2) :
    ∀ n ∈ Table.values d.entryTable, P n := by
  intro n hn
  obtain ⟨row, hrow, rfl⟩ := List.mem_map.1 hn
  exact h row (Table.mem_ofRows row hrow)

/-- What has no edges and is not a function is well typed if its type is right and what it
is made of is well typed. -/
theorem wellTyped_complete {p : Payload Node} {t : Ty} (h : p.Dictates t)
    (hp : ∀ steps, p ≠ .function steps) (hin : d.inType = none) (hout : d.outType = none)
    (hchildren : ∀ c ∈ p.children, c.WellTyped src) :
    ((d.complete p t).finish span).WellTyped src := by
  refine wellTyped_iff.2 ⟨⟨h, ?_, fun _ => ?_⟩, hchildren⟩
  · simp [Draft.complete, Draft.finish, hin, hout]
  · cases p with
    | function steps => exact absurd rfl (hp steps)
    | _ => exact ⟨hin, hout⟩

theorem completeList_eq (d : Draft) :
    d.completeList = { d with children := #[] }.complete (.list d.children.toList)
      ((Ty.leaf Claim.list).require Requirement.item
        ((d.children.toList.head?.map selfType).getD .absent)) := by
  rw [Draft.completeList, Draft.takeChildren]
  cases d.children.toList <;> rfl

theorem wellTyped_list (h : Draft.blank.Gathers src (WellTyped src) r o o' d) :
    (d.completeList.finish span).WellTyped src := by
  rw [completeList_eq]
  exact wellTyped_complete (Ty.requiresOnly_require ..) nofun h.inType h.outType
    fun c hc => (h.children.all.1 c hc).1

theorem wellTyped_map (h : Draft.blank.Gathers src (WellTyped src) r o o' d) :
    (d.completeMap.finish span).WellTyped src :=
  wellTyped_complete (Draft.requiresEach_entriesType Claim.map d) nofun h.inType h.outType
    (of_mem_entryTable fun row hrow => (h.entries.all.1 row hrow).1)

theorem wellTyped_module (h : Draft.blank.Gathers src (WellTyped src) r o o' d) :
    (d.completeModule.finish span).WellTyped src :=
  wellTyped_complete (Draft.requiresEach_entriesType Claim.module d) nofun h.inType h.outType
    (of_mem_entryTable fun row hrow => (h.entries.all.1 row hrow).1)

/-- A function without steps has no edges but those that were declared, and one with
steps has both. -/
theorem isSome_stepsInput? (steps : List Node) :
    (Draft.stepsInput? steps).isSome = (Draft.stepsOutput? steps).isSome := by
  cases steps <;> simp [Draft.stepsInput?, Draft.stepsOutput?]

theorem wellTyped_function {input output : Option Ty} (hedges : input.isSome = output.isSome)
    (h : Draft.Gathers src (WellTyped src) r o o'
      { Draft.blank with inType := input, outType := output } d) :
    (d.completeFunction.finish span).WellTyped src := by
  refine wellTyped_iff.2 ⟨⟨⟨rfl, Ty.requirementNames_edges ..⟩, ?_, fun _ => ⟨?_, ?_⟩⟩,
    fun c hc => (h.children.all.1 c hc).1⟩
  · show (d.inType.or (Draft.stepsInput? d.children.toList)).isSome =
      (d.outType.or (Draft.stepsOutput? d.children.toList)).isSome
    rw [h.inType, h.outType, Option.isSome_or, Option.isSome_or, hedges, isSome_stepsInput?]
  · exact (Ty.requirement?_require_of_ne (by decide) _ _).trans (Ty.requirement?_require_self ..)
  · exact Ty.requirement?_require_self ..

/-- A value behind edges of its own is of the type that it is of without them. -/
theorem wellTyped_typeParameter {input output target : Node} (h : target.WellTyped src)
    (hopen : src.byte? span.start = some '<'.toUInt8) :
    ((Draft.complete { Draft.blank with inType := some input.selfType,
                                        outType := some output.selfType }
      target.payload target.selfType).finish span).WellTyped src := by
  obtain ⟨htyped, hchildren⟩ := wellTyped_iff.1 h
  exact wellTyped_iff.2 ⟨⟨htyped.selfType, rfl, fun hne => absurd hopen hne⟩, hchildren⟩

end Node

/-! ## The grammar -/

/-- A node whose first token is the opening bracket of edges starts with this bracket. -/
theorem Source.Token.byte?_spanOf {m : Nat} {kind : Symbol} (h : src.Token (.symbol kind) o m)
    (hle : m ≤ o') : src.byte? (src.spanOf o o').start = some kind.byte := by
  obtain ⟨x, hx, hkind, rfl⟩ := h
  obtain ⟨hstart, hmatch, -⟩ := Source.lexeme?_eq_some.1 hx
  have hlt := (Source.lexeme?_bounds hx).2.1
  have hmin : (src.spanOf o o').start = src.skipBlanks o := by
    show min (src.skipBlanks o) o' = src.skipBlanks o
    omega
  rw [hkind] at hmatch
  rw [hmin]
  exact (byteRule_eq_some.1 (Except.ok.inj hmatch)).1

namespace Grammar

open Node

theorem leaves_le {levels : Nat} {d d' : Draft} (h : Leaves src levels o d o' d') : o ≤ o' := by
  induction levels generalizing o d o' d' with
  | zero => exact h.elim
  | succ levels ih => exact Pattern.Traces.le (fun _ _ _ _ _ => ih) h

/-- Where values end does not matter to types. -/
theorem wellTyped_value {ν : Type} {R : ν → Trace} {inner : Pattern ν} {d : Draft}
    (hinner : (inner.Traces src R).Yields src (fun _ => True) (WellTyped src))
    (h : (value inner).Traces src R o .blank o' d) :
    (d.finish (src.spanOf o o')).WellTyped src := by
  obtain ⟨p, hp, h⟩ := Pattern.traces_firstOf.1 h
  simp only [List.mem_cons, List.not_mem_nil, or_false] at hp
  rcases hp with rfl | rfl | rfl | rfl | rfl | rfl | rfl | rfl | rfl | rfl
  · obtain ⟨m, d, -, hd, rfl⟩ := traces_list (fun _ _ => trivial) (fun _ _ _ => trivial) hinner h
    exact wellTyped_list hd
  · obtain ⟨m, d, -, hd, rfl⟩ := traces_map (fun _ _ => trivial) (fun _ _ _ => trivial) hinner h
    exact wellTyped_map hd
  · obtain ⟨input, output, m, d, hedges, -, hd, rfl⟩ := traces_function (fun _ _ => trivial)
      (fun _ _ _ => trivial) (fun _ _ _ => trivial) hinner h
    exact wellTyped_function hedges hd
  · obtain ⟨input, output, target, m, htarget, hopen, -, -, hle, rfl⟩ :=
      traces_typeParameter hinner h trivial
    exact wellTyped_typeParameter htarget (hopen.byte?_spanOf hle)
  · obtain ⟨target, htarget, -, -, rfl⟩ := traces_typeAlias hinner h trivial
    exact wellTyped_complete (Ty.requiresOnly_require ..) nofun rfl rfl
      (List.forall_mem_singleton.2 htarget)
  · obtain ⟨target, htarget, -, -, rfl⟩ := traces_typeIdentity hinner h trivial
    exact wellTyped_complete (Ty.requiresOnly_require ..) nofun rfl rfl
      (List.forall_mem_singleton.2 htarget)
  · rw [traces_discard h]
    exact wellTyped_complete rfl nofun rfl rfl nofun
  · obtain ⟨value, rfl⟩ := traces_integer h
    exact wellTyped_complete rfl nofun rfl rfl nofun
  · obtain ⟨path, hpath, rfl⟩ := traces_identifierChain h
    exact wellTyped_complete ⟨hpath, rfl⟩ nofun rfl rfl nofun
  · obtain ⟨text, rfl⟩ := traces_string h
    exact wellTyped_complete rfl nofun rfl rfl nofun

theorem leaves_yields (levels : Nat) :
    (Leaves src levels).Yields src (fun _ => True) (WellTyped src) := by
  refine ⟨fun _ _ _ _ => leaves_le, fun _ _ _ _ _ => trivial, ?_⟩
  -- what is inside a value has one level less than the value
  induction levels with
  | zero => exact fun _ _ _ hnone => hnone.elim
  | succ levels ih =>
      intro o o' e h _
      have hinner : ((Pattern.ref Nonterminal.value).Traces src fun _ =>
          Leaves src levels).Yields src (fun _ => True) (WellTyped src) :=
        ⟨fun _ _ _ _ => leaves_le, fun _ _ _ _ _ => trivial, ih⟩
      exact wellTyped_value hinner h

end Grammar

theorem Goal.wellTyped_leaves {goal : Goal} {levels : Nat} {d : Draft}
    (h : goal.Leaves src levels o .blank o' d) : (d.finish (src.spanOf o o')).WellTyped src := by
  have hinner : ((Pattern.ref Nonterminal.value).Traces src fun _ =>
      Grammar.Leaves src levels).Yields src (fun _ => True) (Node.WellTyped src) :=
    Grammar.leaves_yields levels
  cases goal with
  | module =>
      obtain ⟨d, hd, -, rfl⟩ := Grammar.traces_module (fun _ _ => trivial) (fun _ _ => trivial)
        (fun _ _ _ => trivial) (fun _ _ _ _ _ => Grammar.leaves_le) hinner h
      exact Node.wellTyped_module hd
  | value =>
      obtain ⟨m, e, hvalue, _, _, ⟨_, ⟨-, -, rfl⟩, rfl⟩, rfl, rfl⟩ := h
      exact Grammar.wellTyped_value hinner hvalue

/-- Every node of a tree that was parsed is of the type that it should have: its type is
the one that its payload dictates, it has both edges or none, and unless it begins with
the bracket of edges that were given to it, it has edges only if it is a function, and then
those that its type requires. -/
theorem typed_of_parse {goal : Goal} {l : Limits} {p : Parsed} (h : parse goal src l = .ok p)
    {n : Node} (hn : n ∈ p.node.subtree) : n.Typed src := by
  obtain ⟨levels, stop, d, hleaves, hnode⟩ := leaves_of_parse h
  rw [hnode] at hn
  exact goal.wellTyped_leaves hleaves n hn

/-- A list with a function in it that says what it takes and gives, and does nothing. -/
theorem typed_of_parse_list :
    ∃ p f, parse .value ⟨"[(<A B>)]"⟩ = .ok p ∧ p.node.children = [f] ∧
      f.payload = .function [] ∧ f.inType = some (.leaf "A") ∧ f.outType = some (.leaf "B") ∧
        p.node.Typed ⟨"[(<A B>)]"⟩ ∧ f.Typed ⟨"[(<A B>)]"⟩ := by
  let edges : Ty := ⟨Claim.function, [(Requirement.input, .leaf "A"),
    (Requirement.output, .leaf "B")]⟩
  let f : Node := ⟨edges, some (.leaf "A"), some (.leaf "B"), ⟨1, 8⟩, .function []⟩
  let root : Node := ⟨⟨Claim.list, [(Requirement.item, edges)]⟩, none, none, ⟨0, 9⟩, .list [f]⟩
  have hok : parse .value ⟨"[(<A B>)]"⟩ = .ok ⟨root, []⟩ := by cbv
  have hsubtree : root.subtree = [root, f] := by
    rw [Node.subtree_eq]
    show root :: [f].flatMap Node.subtree = [root, f]
    rw [List.flatMap_singleton, Node.subtree_eq]
    rfl
  refine ⟨⟨root, []⟩, f, hok, rfl, rfl, rfl, rfl, ?_, ?_⟩
  · refine typed_of_parse hok ?_
    rw [hsubtree]
    exact List.mem_cons_self ..
  · refine typed_of_parse hok ?_
    rw [hsubtree]
    exact List.mem_cons_of_mem _ (List.mem_cons_self ..)

end WeLang
