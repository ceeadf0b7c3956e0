import WeLang.Proofs.Cutting
import WeLang.Proofs.Placing
import WeLang.Proofs.Recognition
import WeLang.Proofs.Twins
import WeLang.Proofs.Typing

/-!
# How the nodes of a tree lie in the source

A node covers the tokens from its first to its last, and its children lie behind its first
token, apart from each other, and end no later than it does (`Node.Nested`). What a
production gathers it gathers from left to right, so two values never overlap; that a
function has its steps in another order than they are written in, and a map its entries in
the order of their keys, makes no difference to that. And a value behind edges of its own
has as its children those of the value, which lie within it all the more.

The module is the one node that covers more than its tokens: it ends where the source ends.
-/

namespace WeLang

variable {cx : Context} {src : Source} {o o' : Nat}

/-! ## Spans beside each other -/

/-- A span that ends before another begins. -/
def Span.Before (s t : Span) : Prop :=
  s.stop ≤ t.start

/-- Spans that do not overlap. -/
def Span.Apart (s t : Span) : Prop :=
  s.Before t ∨ t.Before s

theorem Span.Before.apart (s t : Span) (h : s.stop ≤ t.start) : s.Apart t :=
  .inl h

theorem Span.apart_comm (s t : Span) (h : s.Apart t) : t.Apart s :=
  h.symm

namespace Table

variable {α : Type} {r : String × α → String × α → Prop}

/-- In which order rows are put into a table does not matter to what any two of them have in
common. -/
theorem pairwise_insert (hsymm : ∀ a b, r a b → r b a) {name : String} {x : α} {table : Table α}
    (h : table.Pairwise r) (hx : ∀ row ∈ table, r (name, x) row) :
    (table.insert name x).Pairwise r := by
  induction table with
  | nil => exact List.pairwise_singleton r _
  | cons row rows ih =>
      obtain ⟨hrow, hrows⟩ := List.pairwise_cons.1 h
      obtain ⟨hfirst, hrest⟩ := List.forall_mem_cons.1 hx
      rw [insert]
      split
      · exact List.pairwise_cons.2 ⟨hx, h⟩
      · split
        · exact List.pairwise_cons.2 ⟨hrest, hrows⟩
        · refine List.pairwise_cons.2 ⟨fun other hother => ?_, ih hrows hrest⟩
          rcases mem_insert hother with rfl | hother
          · exact hsymm _ _ hfirst
          · exact hrow other hother

theorem pairwise_ofRows (hsymm : ∀ a b, r a b → r b a) {rows : List (String × α)}
    (h : rows.Pairwise r) : (ofRows rows).Pairwise r := by
  -- the rows that are in the table already go with those that are still to come
  suffices hfold : ∀ table : Table α, table.Pairwise r →
      (∀ row ∈ rows, ∀ other ∈ table, r row other) →
        (rows.foldl (fun table row => table.insert row.1 row.2) table).Pairwise r from
    hfold [] .nil fun _ _ _ hother => absurd hother List.not_mem_nil
  induction rows with
  | nil => exact fun table htable _ => htable
  | cons row rows ih =>
      intro table htable hcross
      obtain ⟨hrow, hrows⟩ := List.pairwise_cons.1 h
      obtain ⟨hfirst, hrest⟩ := List.forall_mem_cons.1 hcross
      refine ih hrows _ (pairwise_insert hsymm htable hfirst) fun other hother entry hentry => ?_
      rcases mem_insert hentry with rfl | hentry
      · exact hsymm _ _ (hrow other hother)
      · exact hrest other hother entry hentry

end Table

/-! ## Nodes within nodes -/

/-- A node whose children lie within it and apart from each other. -/
structure Node.Nested (n : Node) : Prop where
  inside : ∀ c ∈ n.children, n.span.start < c.span.start ∧ c.span.stop ≤ n.span.stop
  apart : n.children.Pairwise fun c c' => c.span.Apart c'.span
  ordered : ∀ items, n.payload = .list items → items.Pairwise fun c c' => c.span.Before c'.span

section Productions

variable {P : Node → Prop} {d : Draft} {span : Span} {lo hi : Nat}

/-- What is made of what was gathered behind the beginning of a node is nested in it. -/
theorem Draft.nested_complete {p : Payload Node} {t : Ty}
    (hp : ∀ items, p = .list items → items.Pairwise fun c c' => c.span.Before c'.span)
    (hlo : span.start < lo) (hhi : hi ≤ span.stop)
    (hchildren : ∀ c ∈ p.children, P c ∧ lo ≤ c.span.start ∧ c.span.stop ≤ hi)
    (hapart : p.children.Pairwise fun c c' => c.span.Apart c'.span) :
    ((d.complete p t).finish span).Nested ∧
      ∀ c ∈ ((d.complete p t).finish span).children, P c := by
  refine ⟨⟨fun c hc => ?_, hapart, hp⟩, fun c hc => (hchildren c hc).1⟩
  obtain ⟨-, hstart, hstop⟩ := hchildren c hc
  exact ⟨Nat.lt_of_lt_of_le hlo hstart, Nat.le_trans hstop hhi⟩

theorem Draft.nested_list (h : Draft.blank.Gathers src P Span.Before lo hi d)
    (hlo : span.start < lo) (hhi : hi ≤ span.stop) :
    (d.completeList.finish span).Nested ∧ ∀ c ∈ (d.completeList.finish span).children, P c := by
  obtain ⟨hall, hpairs⟩ := h.children.all
  rw [Node.completeList_eq]
  refine nested_complete ?_ hlo hhi hall (hpairs.imp Or.inl)
  intro items hitems
  cases hitems
  exact hpairs

/-- The entries of a map stand apart in the source, so they stand apart in the table. -/
theorem Draft.nested_entries {p : Payload Node} {t : Ty}
    (h : Draft.blank.Gathers src P Span.Apart o hi d)
    (hp : p.children = Table.values d.entryTable) (hlist : ∀ items, p ≠ .list items)
    (hlo : span.start ≤ src.skipBlanks o) (hhi : hi ≤ span.stop) {e : Draft} :
    ((e.complete p t).finish span).Nested ∧
      ∀ c ∈ ((e.complete p t).finish span).children, P c := by
  obtain ⟨hall, hpairs⟩ := h.entries.all
  refine nested_complete (fun items hitems => absurd hitems (hlist items))
    (Nat.lt_succ_of_le hlo) hhi ?_ ?_ <;> rw [hp]
  · exact Node.of_mem_entryTable hall
  · exact List.pairwise_map.2 (Table.pairwise_ofRows (fun _ _ => Span.apart_comm _ _) hpairs)

theorem Draft.nested_function {input output : Option Ty}
    (h : Draft.Gathers src P Span.Apart lo hi
      { Draft.blank with inType := input, outType := output } d)
    (hlo : span.start < lo) (hhi : hi ≤ span.stop) :
    (d.completeFunction.finish span).Nested ∧
      ∀ c ∈ (d.completeFunction.finish span).children, P c := by
  obtain ⟨hall, hpairs⟩ := h.children.all
  exact nested_complete (fun _ h => by cases h) hlo hhi hall hpairs

/-- What is nested in a value is nested in a node that begins before the value and ends
where it does. -/
theorem Node.Nested.extend {n n' : Node} (h : n.Nested) (hp : n'.payload = n.payload)
    (hstart : n'.span.start ≤ n.span.start) (hstop : n.span.stop = n'.span.stop) :
    n'.Nested := by
  have hchildren : n'.children = n.children := congrArg Payload.children hp
  refine ⟨fun c hc => ?_, hchildren ▸ h.apart, hp ▸ h.ordered⟩
  obtain ⟨hlo, hhi⟩ := h.inside c (hchildren ▸ hc)
  exact ⟨Nat.lt_of_le_of_lt hstart hlo, hstop ▸ hhi⟩

end Productions

namespace Grammar

variable {ν : Type} {R : ν → Trace} {inner : Pattern ν} {C : Nat → Prop} {P : Node → Prop}
  {d : Draft}

/-- A value is nested if the values inside it are. -/
theorem value_nested
    (hC : ∀ {o o' : Nat} {kind : TokenKind}, src.Token kind o o' →
      kind ≠ .symbol .identifierSeparator → C o)
    (hinner : (inner.Traces src R).Yields src C P)
    (hP : ∀ n, P n → n.Nested ∧ ∀ c ∈ n.children, P c)
    (h : (value inner).Traces src R o .blank o' d) (ho' : C o') :
    (d.finish (src.spanOf o o')).Nested ∧ ∀ c ∈ (d.finish (src.spanOf o o')).children, P c := by
  have hstart : (src.spanOf o o').start ≤ src.skipBlanks o := Nat.min_le_left ..
  have hnone {p : Payload Node} {t : Ty} {e : Draft} (hp : p.children = [])
      (hlist : ∀ items, p ≠ .list items) : ((e.complete p t).finish (src.spanOf o o')).Nested ∧
        ∀ c ∈ ((e.complete p t).finish (src.spanOf o o')).children, P c :=
    Draft.nested_complete (fun items hitems => absurd hitems (hlist items)) (Nat.lt_succ_self _)
      (Nat.zero_le _) (by simp [hp]) (by simp [hp])
  have hone {p : Payload Node} {t : Ty} {e : Draft} {n : Node} (hp : p.children = [n])
      (hlist : ∀ items, p ≠ .list items) (hn : P n) (hlo : src.skipBlanks o < n.span.start)
      (hhi : n.span.stop = o') : ((e.complete p t).finish (src.spanOf o o')).Nested ∧
        ∀ c ∈ ((e.complete p t).finish (src.spanOf o o')).children, P c := by
    refine Draft.nested_complete (fun items hitems => absurd hitems (hlist items))
      (Nat.lt_of_le_of_lt hstart hlo) (Nat.le_of_eq hhi) ?_ ?_ <;> rw [hp]
    · exact List.forall_mem_singleton.2 ⟨hn, Nat.le_refl _, Nat.le_refl _⟩
    · exact List.pairwise_singleton ..
  obtain ⟨p, hp, h⟩ := Pattern.traces_firstOf.1 h
  simp only [List.mem_cons, List.not_mem_nil, or_false] at hp
  rcases hp with rfl | rfl | rfl | rfl | rfl | rfl | rfl | rfl | rfl | rfl
  · obtain ⟨m, d, hlt, hd, rfl⟩ := traces_list hC (fun _ _ => id) hinner h
    exact Draft.nested_list hd (Nat.lt_of_le_of_lt hstart hlt) (Nat.le_refl o')
  · obtain ⟨m, d, hlt, hd, rfl⟩ := traces_map hC Span.Before.apart hinner h
    refine Draft.nested_entries (p := .map d.entryTable) hd rfl (fun _ h => by cases h) ?_
      (Nat.le_refl o')
    have := src.le_skipBlanks m
    omega
  · obtain ⟨input, output, m, d, -, hlt, hd, rfl⟩ :=
      traces_function hC Span.Before.apart Span.apart_comm hinner h
    exact Draft.nested_function hd (Nat.lt_of_le_of_lt hstart hlt) (Nat.le_refl o')
  · obtain ⟨input, output, target, m, htarget, hopen, hlo, hhi, -, rfl⟩ :=
      traces_typeParameter hinner h ho'
    obtain ⟨hnested, hchildren⟩ := hP target htarget
    have := hopen.lt
    exact ⟨hnested.extend rfl (show (src.spanOf o o').start ≤ _ by omega) hhi, hchildren⟩
  · obtain ⟨target, htarget, hlo, hhi, rfl⟩ := traces_typeAlias hinner h ho'
    exact hone rfl (fun _ h => by cases h) htarget hlo hhi
  · obtain ⟨target, htarget, hlo, hhi, rfl⟩ := traces_typeIdentity hinner h ho'
    exact hone rfl (fun _ h => by cases h) htarget hlo hhi
  · rw [traces_discard h]
    exact hnone rfl (fun _ h => by cases h)
  · obtain ⟨value, rfl⟩ := traces_integer h
    exact hnone rfl (fun _ h => by cases h)
  · obtain ⟨path, -, rfl⟩ := traces_identifierChain h
    exact hnone rfl (fun _ h => by cases h)
  · obtain ⟨text, rfl⟩ := traces_string h
    exact hnone rfl (fun _ h => by cases h)

/-- A node that is built by a run and nested, as all below it are. -/
abbrev Grown (cx : Context) : Node → Prop :=
  Node.Everywhere fun n => n.Nested ∧ n.Built cx

theorem grown_iff {n : Node} :
    Grown cx n ↔ (n.Nested ∧ n.Built cx) ∧ ∀ c ∈ n.children, Grown cx c :=
  Node.everywhere_iff

theorem Placed.le {levels : Nat} {d d' : Draft} (h : Placed cx levels o d o' d') : o ≤ o' := by
  obtain ⟨xs, hxs, -⟩ := h.2.path
  exact Nat.le_trans (Nat.le_add_right ..) hxs.le

theorem Placed.closes {levels : Nat} {d d' : Draft} (h : Placed cx levels o d o' d') :
    cx.source.Closes o := by
  obtain ⟨xs, hxs, hv⟩ := h.2.path
  exact hxs.closes hv

/-- What runs of the matcher of values leave at offsets on the path becomes nodes that are
nested, and so does everything in them. -/
theorem placed_yields {levels : Nat} (hlevels : levels ≤ cx.limits.maxDepth + 2) :
    (Placed cx levels).Yields cx.source cx.source.Closes (Grown cx) := by
  refine ⟨fun _ _ _ _ => Placed.le, fun _ _ _ _ => Placed.closes, ?_⟩
  induction levels with
  | zero =>
      intro o o' e h
      obtain ⟨-, s, t, -, -, hrun, -⟩ := h
      cases hrun
  | succ levels ih =>
      intro o o' e h ho'
      have hinner : ((Pattern.ref Nonterminal.value).Traces cx.source fun _ =>
          Placed cx levels).Yields cx.source cx.source.Closes (Grown cx) :=
        ⟨fun _ _ _ _ => Placed.le, fun _ _ _ _ => Placed.closes, ih (by omega)⟩
      obtain ⟨hnested, hchildren⟩ := value_nested Source.Token.closes hinner
        (fun n hn => ⟨(grown_iff.1 hn).1.1, (grown_iff.1 hn).2⟩) h.value ho'
      exact grown_iff.2 ⟨⟨hnested, levels + 1, o, o', e, hlevels, ho', h, rfl⟩, hchildren⟩

end Grammar

/-! ## Whole sources -/

section Whole

variable {stop : Nat} {s t : State}

theorem Goal.matcher_bound {goal : Goal} (h : goal.matcher cx 0 s = .ok stop t) :
    stop ≤ cx.source.size := by
  have hbound := ((goal.matcher_lawful cx).of_ok h).2.1
  omega

/-- A source that is one value is read by a run of the matcher of values, up to blanks. -/
theorem Grammar.soleValue_ran (hdepth : 0 < s.progress.depth)
    (h : Goal.value.matcher cx 0 s = .ok stop t) :
    Ran cx (cx.limits.maxDepth + 2) 0 s.draft stop t.draft ∧ cx.source.isSpent stop = true := by
  have h : Matcher.andThen (valueWithin cx (cx.limits.maxDepth + 2))
      (Matcher.andThen (Matcher.ahead (Matcher.endOfInput cx)) Matcher.done) 0 s = .ok stop t := h
  rw [Matcher.andThen] at h
  cases hvalue : valueWithin cx (cx.limits.maxDepth + 2) 0 s with
  | error f e => simp only [hvalue, reduceCtorEq] at h
  | ok m e =>
      simp only [hvalue] at h
      have hdone : Matcher.Traced (fun o d o' d' => o' = o ∧ d' = d) Matcher.done :=
        fun _ _ _ _ h => by cases h; exact ⟨rfl, rfl⟩
      have hrest := Matcher.andThen_traced
        (Matcher.ahead_traced (Matcher.endOfInput_traced cx)) hdone
      cases hend : Matcher.andThen (Matcher.ahead (Matcher.endOfInput cx)) Matcher.done m e with
      | error f e' => simp only [hend, reduceCtorEq] at h
      | ok m' e' =>
          simp only [hend] at h
          cases h
          obtain ⟨_, _, ⟨_, ⟨hspent, -, hsame⟩, rfl⟩, rfl, hdraft⟩ := hrest hend
          exact ⟨⟨s, e, hdepth, rfl, hvalue, (hdraft.trans hsame).symm⟩, hspent⟩

/-- The root of a module is nested in the whole source, and what is in it is grown. -/
theorem Grammar.module_root (hdraft : s.draft = .blank)
    (h : Goal.module.matcher cx 0 s = .ok stop t) :
    (t.draft.finish (cx.source.spanOf 0 stop)).Nested ∧
      (∀ c ∈ (t.draft.finish (cx.source.spanOf 0 stop)).children, Grown cx c) ∧
        cx.source.spanOf 0 stop = ⟨cx.source.skipBlanks 0, cx.source.size⟩ := by
  have hbound := Goal.matcher_bound h
  have htraces := traces_of_run module_sheltered (fun _ => module_tidy ref_tidy)
    cx.source.reached_zero h
  rw [hdraft] at htraces
  have hinner : ((Pattern.ref Nonterminal.value).Traces cx.source fun _ =>
      Placed cx (cx.limits.maxDepth + 1)).Yields cx.source cx.source.Closes (Grown cx) :=
    placed_yields (by omega)
  obtain ⟨d, hd, hsize, hcomplete⟩ := traces_module Source.Token.closes
    (fun _ => Source.closes_of_isSpent) Span.Before.apart (fun _ _ _ _ _ => Placed.le) hinner
    htraces
  obtain rfl : stop = cx.source.size := Nat.le_antisymm hbound hsize
  have hskip := cx.source.skipBlanks_le 0
  have hspan : cx.source.spanOf 0 cx.source.size = ⟨cx.source.skipBlanks 0, cx.source.size⟩ := by
    simp only [Source.spanOf, Span.mk.injEq, and_true]
    omega
  rw [hcomplete, hspan]
  obtain ⟨hnested, hchildren⟩ := Draft.nested_entries
    (p := .module d.usings.toList d.entryTable) hd rfl (fun _ h => by cases h)
    (show (Span.mk (cx.source.skipBlanks 0) cx.source.size).start ≤ _ from Nat.le_refl _)
    (Nat.le_refl _)
  exact ⟨hnested, hchildren, rfl⟩

theorem Grammar.value_root (hdepth : 0 < s.progress.depth) (hdraft : s.draft = .blank)
    (h : Goal.value.matcher cx 0 s = .ok stop t) :
    Grown cx (t.draft.finish (cx.source.spanOf 0 stop)) := by
  obtain ⟨hran, hspent⟩ := soleValue_ran hdepth h
  rw [hdraft] at hran
  exact (placed_yields (Nat.le_refl _)).makes ⟨cx.source.reached_zero, hran⟩
    (Source.closes_of_isSpent hspent)

end Whole

variable {goal : Goal} {l : Limits} {p : Parsed} {n : Node}

/-- Every tree is nested, and every node but a module was built by a run. -/
theorem Node.grown_of_parse (h : parse goal src l = .ok p) :
    p.node.Nested ∧ (∀ c ∈ p.node.children, Grammar.Grown ⟨src, l⟩ c) ∧
      (match goal with
        | .module => p.node.span = ⟨src.skipBlanks 0, src.size⟩
        | .value => p.node.Built ⟨src, l⟩) := by
  obtain ⟨found, q, hout, rfl⟩ := parse_eq_ok.1 h
  obtain ⟨stop, t, hrun, rfl, -⟩ := Parse.run_of_outcome_ok hout
  cases goal with
  | module =>
      obtain ⟨hnested, hchildren, hspan⟩ := Grammar.module_root rfl hrun
      exact ⟨hnested, hchildren, hspan⟩
  | value =>
      obtain ⟨⟨hnested, hbuilt⟩, hchildren⟩ :=
        Grammar.grown_iff.1 (Grammar.value_root (Nat.zero_lt_one) rfl hrun)
      exact ⟨hnested, hchildren, hbuilt⟩

theorem Node.nested_of_mem (h : parse goal src l = .ok p) (hn : n ∈ p.node.subtree) :
    n.Nested := by
  obtain ⟨hnested, hchildren, -⟩ := grown_of_parse h
  rw [subtree_eq, List.mem_cons, List.mem_flatMap] at hn
  rcases hn with rfl | ⟨c, hc, hn⟩
  · exact hnested
  · exact (hchildren c hc n hn).1

theorem Node.built_of_mem (h : parse goal src l = .ok p) (hn : n ∈ p.node.subtree)
    (hroot : goal = .module → n ≠ p.node) : n.Built ⟨src, l⟩ := by
  obtain ⟨-, hchildren, hgoal⟩ := grown_of_parse h
  rw [subtree_eq, List.mem_cons, List.mem_flatMap] at hn
  rcases hn with rfl | ⟨c, hc, hn⟩
  · cases goal with
    | module => exact absurd rfl (hroot rfl)
    | value => exact hgoal
  · exact (hchildren c hc n hn).2

/-- A source that is parsed can be cut into tokens. -/
theorem Parse.exists_tokens_of_ok (h : parse goal src l = .ok p) :
    ∃ ts, tokenize src = .ok ts ∧ src.Reads 0 (ts.map Token.lexeme) := by
  obtain ⟨found, q, hout, -⟩ := parse_eq_ok.1 h
  obtain ⟨stop, t, hrun, -⟩ := run_of_outcome_ok hout
  obtain ⟨xs, hreads, -⟩ := goal.reads_of_matcher hrun
  obtain ⟨ts, hts, rfl⟩ := exists_tokenize_of_reads hreads
  exact ⟨ts, hts, hreads⟩

/-! ## The theorem -/

/-- A span that lies in a source and does not cut a character. -/
structure Span.LiesIn (src : Source) (s : Span) : Prop where
  le : s.start ≤ s.stop
  bound : s.stop ≤ src.size
  start : src.Boundary s.start
  stop : src.Boundary s.stop

/-- A span from the start of one of some tokens to the end of one of them, with something
between. -/
structure Span.Covers (ts : List Token) (s : Span) : Prop where
  lt : s.start < s.stop
  start : ∃ t ∈ ts, t.span.start = s.start
  stop : ∃ t ∈ ts, t.span.stop = s.stop

theorem Source.Path.exists_last {xs : List Lexeme} (h : src.Path o xs o') (hne : xs ≠ []) :
    ∃ y ∈ xs, y.span.stop = o' := by
  induction h with
  | nil o => exact absurd rfl hne
  | @cons o o' x xs _ tail ih =>
      cases tail with
      | nil _ => exact ⟨x, List.mem_singleton_self x, rfl⟩
      | cons _ _ =>
          obtain ⟨y, hy, hstop⟩ := ih (List.cons_ne_nil _ _)
          exact ⟨y, List.mem_cons_of_mem _ hy, hstop⟩

theorem Source.Path.exists_first {xs : List Lexeme} (h : src.Path o xs o') (hne : xs ≠ []) :
    ∃ x ∈ xs, x.span.start = src.skipBlanks o := by
  cases h with
  | nil _ => exact absurd rfl hne
  | cons head _ => exact ⟨_, List.mem_cons_self .., (Source.lexeme?_eq_some.1 head).1⟩

/-- What is read from an offset on the path is among the tokens of the source. -/
theorem Source.Reached.subset {xs ys : List Lexeme} (h : src.Reached o) (hpath : src.Path o ys o')
    (hreads : src.Reads 0 xs) : ys ⊆ xs := by
  obtain ⟨us, hus⟩ := h
  obtain ⟨m, hall, -⟩ := hus.trans ⟨o', hpath, rfl⟩
  obtain ⟨zs, rfl, -⟩ := hreads.of_path hall
  intro y hy
  simp [hy]

/-- A node that was built by a run covers tokens of its source. -/
theorem Node.Built.covers {ts : List Token} (h : n.Built cx)
    (hts : cx.source.Reads 0 (ts.map Token.lexeme)) :
    n.span.Covers ts ∧ n.span.LiesIn cx.source := by
  obtain ⟨levels, o, stop, e, -, -, ⟨hreached, hran⟩, rfl⟩ := h
  obtain ⟨xs, hxs, hv⟩ := hran.path
  have hne := Grammar.ne_nil_of_isValue hv
  have htoken {y : Lexeme} (hy : y ∈ xs) : ∃ t ∈ ts, t.span = y.span := by
    obtain ⟨t, ht, rfl⟩ := List.mem_map.1 (hreached.subset hxs hts hy)
    exact ⟨t, ht, rfl⟩
  obtain ⟨x, hx, hfirst⟩ := hxs.exists_first hne
  obtain ⟨y, hy, hlast⟩ := hxs.exists_last hne
  obtain ⟨t, ht, htx⟩ := htoken hx
  obtain ⟨u, hu, huy⟩ := htoken hy
  obtain ⟨a, ha⟩ := hxs.exists_lexeme? x hx
  obtain ⟨b, hb⟩ := hxs.exists_lexeme? y hy
  obtain ⟨-, -, -, hstart, -⟩ := Source.lexeme?_bounds ha
  obtain ⟨-, -, hbound, -, hstop⟩ := Source.lexeme?_bounds hb
  have hlt := hxs.start_lt x hx
  have hspan : (e.finish (cx.source.spanOf o stop)).span = ⟨cx.source.skipBlanks o, stop⟩ :=
    hxs.spanOf_eq hne
  rw [hspan, ← hfirst]
  rw [hlast] at hbound hstop
  exact ⟨⟨hlt, ⟨t, ht, by rw [htx]⟩, u, hu, (congrArg Span.stop huy).trans hlast⟩,
    Nat.le_of_lt hlt, hbound, hstart, hstop⟩

theorem Node.liesIn_of_mem (h : parse goal src l = .ok p) (hn : n ∈ p.node.subtree) :
    n.span.LiesIn src := by
  by_cases hroot : goal = .module → n ≠ p.node
  · obtain ⟨ts, -, hreads⟩ := Parse.exists_tokens_of_ok h
    exact ((built_of_mem h hn hroot).covers hreads).2
  · obtain ⟨rfl, rfl⟩ : goal = .module ∧ n = p.node := by simpa using hroot
    obtain ⟨-, -, hspan⟩ := grown_of_parse h
    have hskip := src.skipBlanks_le 0
    rw [hspan]
    exact ⟨show src.skipBlanks 0 ≤ src.size by omega, Nat.le_refl _,
      Source.boundary_skipBlanks src.boundary_zero, src.boundary_size⟩

/-- How the nodes of a tree that was parsed lie in its source. All of them lie in it
without cutting a character, and their children lie in them: behind where they start, up to
where they end, apart from each other, and the items of a list in order. A node covers
tokens, from the first to the last, unless it is a module: that one is from the first byte
that is not blank to the end. -/
theorem nested_of_parse (h : parse goal src l = .ok p) :
    ∃ ts, tokenize src = .ok ts ∧
      (goal = .module → p.node.span = ⟨src.skipBlanks 0, src.size⟩) ∧
        ∀ n ∈ p.node.subtree, n.Nested ∧ n.span.LiesIn src ∧
          ((goal = .module → n ≠ p.node) → n.span.Covers ts) := by
  obtain ⟨ts, hts, hreads⟩ := Parse.exists_tokens_of_ok h
  obtain ⟨-, -, hgoal⟩ := Node.grown_of_parse h
  have hmodule (hmod : goal = .module) : p.node.span = ⟨src.skipBlanks 0, src.size⟩ := by
    subst hmod
    exact hgoal
  exact ⟨ts, hts, hmodule, fun n hn => ⟨Node.nested_of_mem h hn, Node.liesIn_of_mem h hn,
    fun hroot => ((Node.built_of_mem h hn hroot).covers hreads).1⟩⟩

/-- A function, which has its steps in another order than they are written in. -/
theorem nested_of_parse_function :
    ∃ p ts, parse .value ⟨"(1 2)"⟩ = .ok p ∧ tokenize ⟨"(1 2)"⟩ = .ok ts ∧
      p.node.children.map Node.span = [⟨3, 4⟩, ⟨1, 2⟩] ∧ p.node.Nested ∧
        ∀ n ∈ p.node.subtree, n.span.Covers ts := by
  let integer : Ty := .leaf Claim.integer
  let steps : List Node :=
    [⟨integer, none, none, ⟨3, 4⟩, .integer 2⟩, ⟨integer, none, none, ⟨1, 2⟩, .integer 1⟩]
  let root : Node := ⟨⟨Claim.function, [(Requirement.input, integer),
    (Requirement.output, integer)]⟩, some integer, some integer, ⟨0, 5⟩, .function steps⟩
  have hok : parse .value ⟨"(1 2)"⟩ = .ok ⟨root, []⟩ := by cbv
  obtain ⟨ts, hts, -, hall⟩ := nested_of_parse hok
  refine ⟨⟨root, []⟩, ts, hok, hts, rfl, ?_, fun n hn => (hall n hn).2.2 fun hmod => by cases hmod⟩
  rw [Node.subtree_eq] at hall
  exact (hall root (List.mem_cons_self ..)).1

end WeLang
