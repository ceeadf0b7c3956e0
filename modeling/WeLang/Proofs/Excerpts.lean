import WeLang.Proofs.Copying
import WeLang.Proofs.Nesting
import WeLang.Proofs.Warnings

/-!
# What a node covers, read on its own

Let a node be cut out of its source. What is cut out are the tokens of a value, to the last
byte. They are still the same tokens, unless the first is glued to what came before it; of
that the parse of the whole would have warned. So it is a value that is read in two places
(`Copy`), and since behind the node no chain went on, and at the end of what is cut out there
is nothing, it is read the second time as well. The second time it is the outermost node, so
there is no less room for what is in it.

What comes of it is the node itself, with its spans counted from where it began
(`parse_excerpt`).
-/

namespace WeLang

variable {goal : Goal} {s t : Source} {l : Limits} {p : Parsed} {n : Node} {o o' : Nat}
  {xs : List Lexeme}

/-! ## Glued names -/

/-- A name is glued exactly if it collides with a reserved word. -/
theorem Source.ofToken?_eq_none {x : Lexeme} (h : s.lexeme? o = some x) :
    KeywordCollision.ofToken? x.kind s x.span = none ↔ ¬ x.Glued := by
  rw [KeywordCollision.ofToken?_of_lexeme? h, Lexeme.Glued]
  by_cases hk : x.kind = .identifier
  · simp [hk, Option.eq_none_iff_forall_ne_some, Keyword.ofSpelling?_eq_some]
  · simp [hk]

theorem Source.Path.collisionsOf_eq_nil (h : s.Path o xs o') :
    s.collisionsOf xs = [] ↔ ∀ x ∈ xs, ¬ x.Glued := by
  rw [collisionsOf, List.filterMap_eq_nil_iff]
  refine forall₂_congr fun x hx => ?_
  obtain ⟨a, ha⟩ := h.exists_lexeme? x hx
  exact ofToken?_eq_none ha

/-- A parse warns of nothing exactly if no token is glued. -/
theorem Parse.warnings_eq_nil (h : parse goal s l = .ok p) (hreads : s.Reads 0 xs) :
    p.warnings = [] ↔ ∀ x ∈ xs, ¬ x.Glued := by
  obtain ⟨ys, hys, hwarnings⟩ := warnings_of_ok h
  obtain rfl := hreads.unique hys
  obtain ⟨o, hpath, -⟩ := hreads
  rw [hwarnings, hpath.collisionsOf_eq_nil]

/-! ## Reading a value on its own -/

/-- What the matcher of values reads up to the end is a source that is one value. -/
theorem Parse.value_of_run {stop : Nat} {u : State} (hroom : 0 < l.maxDepth)
    (h : Grammar.valueWithin ⟨s, l⟩ (l.maxDepth + 2) 0 ⟨.blank, Progress.none.deeper⟩ = .ok stop u)
    (hspent : s.isSpent stop = true) :
    parse .value s l =
      .ok ⟨u.draft.finish (s.spanOf 0 stop), u.progress.leave.warnings.toList⟩ := by
  have hmatcher : Goal.value.matcher ⟨s, l⟩ = Matcher.andThen
      (Grammar.valueWithin ⟨s, l⟩ (l.maxDepth + 2))
      (Matcher.andThen (Matcher.ahead (Matcher.endOfInput ⟨s, l⟩)) Matcher.done) := rfl
  have hend : Matcher.endOfInput ⟨s, l⟩ stop u = .ok (s.skipBlanks stop) u := by
    rw [Matcher.endOfInput_eq, if_pos hspent]
  have hrun : Goal.value.matcher ⟨s, l⟩ 0 ⟨.blank, Progress.none.deeper⟩ = .ok stop u := by
    simp only [hmatcher, Matcher.andThen, Matcher.ahead, Matcher.done, h, hend]
  have hout : Parse.outcome .value ⟨s, l⟩ = _ := Parse.outcome_of_room hroom
  rw [hrun] at hout
  exact parse_eq_ok.2 ⟨_, _, hout, rfl⟩

theorem Parse.room_of_ok (h : parse goal s l = .ok p) : 0 < l.maxDepth := by
  refine Nat.pos_of_ne_zero fun hfull => ?_
  obtain ⟨found, q, hout, -⟩ := parse_eq_ok.1 h
  rw [outcome_of_full hfull] at hout
  cases hout

/-! ## Excerpts -/

/-- A span as it is counted from an offset on. -/
def Span.countedFrom (d : Nat) : Span → Span :=
  Span.move (· - d)

theorem Lexeme.relocate_shift (d : Nat) (x : Lexeme) :
    (x.shift d).relocate (Span.countedFrom d) = x := by
  simp [Lexeme.shift, Lexeme.relocate, Span.countedFrom, Span.move]

/-- Tokens are read from wherever only blanks come before the first of them. -/
theorem Source.Path.congr {m : Nat} (h : s.Path o xs o') (hne : xs ≠ [])
    (heq : s.skipBlanks o = s.skipBlanks m) : s.Path m xs o' := by
  cases h with
  | nil _ => exact absurd rfl hne
  | cons head tail => exact .cons ((lexeme?_congr heq).symm.trans head) tail

/-- A piece of the path that is cut out is read on its own from the beginning to the end,
unless its first token is glued to what comes before. -/
theorem Source.Path.excerpt (h : s.Path o xs o') (hne : xs ≠ [])
    (hpiece : s.Piece (s.skipBlanks o) t) (ho' : o' = s.skipBlanks o + t.size)
    (hfree : ∀ x ∈ xs, ¬ x.Glued) :
    t.Path 0 (xs.map (Lexeme.relocate (Span.countedFrom (s.skipBlanks o)))) t.size := by
  subst ho'
  obtain ⟨ys, rfl, hys⟩ := hpiece.path (o := 0) (h.congr hne (s.skipBlanks_idem o).symm)
    (Nat.le_refl _) fun x hx hglued => absurd hglued (hfree x hx)
  have hsame : Lexeme.relocate (Span.countedFrom (s.skipBlanks o)) ∘
      Lexeme.shift (s.skipBlanks o) = id :=
    funext (Lexeme.relocate_shift _)
  rwa [List.map_map, hsame, List.map_id]

/-- At the end of a source nothing is left. -/
theorem Source.isSpent_size (s : Source) : s.isSpent s.size = true :=
  decide_eq_true (s.le_skipBlanks s.size)

/-- A value where it stands, and the same value cut out. -/
def Copy.cutOut (s : Source) (l : Limits) {text : String} (hxs : s.Path o xs o')
    (hvalue : Language.IsValue (xs.map Lexeme.kind)) (hcloses : s.Closes o')
    (hsteps : l.maxSteps = none) (htext : s.slice? (s.skipBlanks o) o' = some text)
    (hfree : ∀ x ∈ xs, ¬ x.Glued) : Copy where
  left := ⟨s, l⟩
  right := ⟨⟨text⟩, l⟩
  move := (· - s.skipBlanks o)
  start := o
  stop := o'
  start' := 0
  stop' := Source.size ⟨text⟩
  xs := xs
  path_left := hxs
  path_right := hxs.excerpt (Grammar.ne_nil_of_isValue hvalue) (Source.piece_of_slice? htext)
    (Source.size_of_slice? htext).symm hfree
  value := hvalue
  closes_left := hcloses
  closes_right := Source.closes_of_isSpent (Source.isSpent_size _)
  unlimited := hsteps

/-- What a run of the matcher of values leaves of a value is left once more when the value is
cut out and parsed. -/
theorem Grammar.Ran.excerpt {levels : Nat} {e : Draft} {text : String}
    (h : Ran ⟨s, l⟩ levels o .blank o' e) (hlevels : levels ≤ l.maxDepth + 2)
    (hcloses : s.Closes o') (hsteps : l.maxSteps = none) (hroom : 0 < l.maxDepth)
    (htext : s.slice? (s.skipBlanks o) o' = some text)
    (hfree : ∀ xs, s.Path o xs o' → ∀ x ∈ xs, ¬ x.Glued) :
    parse .value ⟨text⟩ l =
      .ok ⟨(e.finish (s.spanOf o o')).relocate (Span.countedFrom (s.skipBlanks o)), []⟩ := by
  obtain ⟨xs, hxs, hvalue⟩ := h.path
  let w := Copy.cutOut s l hxs hvalue hcloses hsteps htext (hfree xs hxs)
  obtain ⟨u, v, hdepth, hblank, hrun, rfl⟩ := h
  -- cut out, the value is not inside of other nodes, so there is as much room for it
  have hstates : w.SameState u.progress.depth 1 u ⟨.blank, Progress.none.deeper⟩ :=
    ⟨by rw [hblank, Draft.relocate_blank], rfl, rfl⟩
  obtain ⟨v', hrun', hdraft⟩ := w.valueWithin_ok hlevels
    (show l.maxDepth + 1 ≤ l.maxDepth + u.progress.depth by omega) hstates hrun
  have hparse : parse .value ⟨text⟩ l = .ok ⟨v'.draft.finish
      (Source.spanOf ⟨text⟩ 0 (Source.size ⟨text⟩)), v'.progress.leave.warnings.toList⟩ :=
    Parse.value_of_run hroom hrun' (Source.isSpent_size _)
  have hnode : v'.draft.finish (Source.spanOf ⟨text⟩ 0 (Source.size ⟨text⟩)) =
      (v.draft.finish (s.spanOf o o')).relocate (Span.countedFrom (s.skipBlanks o)) := by
    have hspan : Source.spanOf ⟨text⟩ 0 (Source.size ⟨text⟩) = w.place (s.spanOf o o') :=
      w.spanOf_whole
    rw [hdraft, hspan, Draft.relocate_finish]
    rfl
  have hwarnings : v'.progress.leave.warnings.toList = [] :=
    (Parse.warnings_eq_nil hparse ⟨_, w.path_right, Source.isSpent_size _⟩).2
      (List.forall_mem_map.2 (hfree xs hxs))
  rw [hparse, hnode, hwarnings]

/-- A node that was built by a run is built again when what it covers is parsed. -/
theorem Node.Built.excerpt (h : n.Built ⟨s, l⟩) (hsteps : l.maxSteps = none)
    (hroom : 0 < l.maxDepth) (hreads : s.Reads 0 xs) (hfree : ∀ x ∈ xs, ¬ x.Glued) :
    ∃ text, s.slice? n.span.start n.span.stop = some text ∧
      parse .value ⟨text⟩ l = .ok ⟨n.relocate (Span.countedFrom n.span.start), []⟩ := by
  obtain ⟨ts, -, rfl⟩ := exists_tokenize_of_reads hreads
  have hlies := (h.covers hreads).2
  obtain ⟨levels, o, stop, e, hlevels, hcloses, ⟨hreached, hran⟩, rfl⟩ := h
  obtain ⟨ys, hys, hvalue⟩ := hran.path
  have hspan : (e.finish (s.spanOf o stop)).span = ⟨s.skipBlanks o, stop⟩ :=
    hys.spanOf_eq (Grammar.ne_nil_of_isValue hvalue)
  rw [hspan] at hlies ⊢
  obtain ⟨text, htext⟩ := Source.exists_slice? hlies.start hlies.stop hlies.le
  exact ⟨text, htext, hran.excerpt hlevels hcloses hsteps hroom htext fun _ hpath x hx =>
    hfree x (hreached.subset hpath hreads hx)⟩

/-! ## The theorem -/

theorem Node.subtree_subset {m : Node} (h : n ∈ m.subtree) : n.subtree ⊆ m.subtree := by
  induction m using Node.inductionOn with
  | step m ih =>
      rw [subtree_eq, List.mem_cons, List.mem_flatMap] at h
      rcases h with rfl | ⟨c, hc, hn⟩
      · exact List.Subset.refl _
      · intro k hk
        rw [subtree_eq m]
        exact List.mem_cons_of_mem _ (List.mem_flatMap.2 ⟨c, hc, ih c hc hn hk⟩)

/-- Where nodes are nested, nothing in a node begins before it. -/
theorem Node.start_le_of_mem (h : n.Everywhere Nested) :
    ∀ m ∈ n.subtree, n.span.start ≤ m.span.start := by
  induction n using Node.inductionOn with
  | step n ih =>
      obtain ⟨hnested, hchildren⟩ := everywhere_iff.1 h
      intro m hm
      rw [subtree_eq, List.mem_cons, List.mem_flatMap] at hm
      rcases hm with rfl | ⟨c, hc, hm⟩
      · exact Nat.le_refl _
      · have := (hnested.inside c hc).1
        exact Nat.le_trans (Nat.le_of_lt this) (ih c hc (hchildren c hc) m hm)

/-- What a node covers is read as the node. Where a parse warns of nothing, every node but a
module is got once more by parsing what it covers as a value, again without a warning, and
all that changes is that spans are counted from where the node begins. None of them begins
before it. -/
theorem parse_excerpt (h : parse goal s l = .ok p) (hclean : p.warnings = [])
    (hsteps : l.maxSteps = none) (hn : n ∈ p.node.subtree)
    (hroot : goal = .module → n ≠ p.node) :
    (∃ text, s.slice? n.span.start n.span.stop = some text ∧
      parse .value ⟨text⟩ l = .ok ⟨n.relocate (Span.countedFrom n.span.start), []⟩) ∧
    ∀ m ∈ n.subtree, n.span.start ≤ m.span.start ∧ m.span.start ≤ m.span.stop := by
  obtain ⟨ts, -, hreads⟩ := Parse.exists_tokens_of_ok h
  refine ⟨(Node.built_of_mem h hn hroot).excerpt hsteps (Parse.room_of_ok h) hreads
    ((Parse.warnings_eq_nil h hreads).1 hclean), fun m hm => ?_⟩
  have hmem {k : Node} (hk : k ∈ n.subtree) : k ∈ p.node.subtree := Node.subtree_subset hn hk
  exact ⟨Node.start_le_of_mem (fun k hk => Node.nested_of_mem h (hmem hk)) m hm,
    (Node.liesIn_of_mem h (hmem hm)).le⟩

/-- A numeral with edges, which in the whole is the item of a list. -/
theorem parse_excerpt_item :
    ∃ p n, parse .value ⟨"[<a,b>1]"⟩ = .ok p ∧ n ∈ p.node.subtree ∧ n.span = ⟨1, 7⟩ ∧
      parse .value ⟨"<a,b>1"⟩ = .ok ⟨n.relocate (Span.countedFrom 1), []⟩ := by
  let integer : Ty := .leaf Claim.integer
  let item : Node := ⟨integer, some (.leaf "a"), some (.leaf "b"), ⟨1, 7⟩, .integer 1⟩
  let root : Node := ⟨⟨Claim.list, [(Requirement.item, integer)]⟩, none, none, ⟨0, 8⟩,
    .list [item]⟩
  have hok : parse .value ⟨"[<a,b>1]"⟩ = .ok ⟨root, []⟩ := by cbv
  have hitem : item ∈ root.subtree := by
    rw [Node.subtree_eq, show root.children = [item] from rfl, List.flatMap_singleton,
      Node.subtree_eq item]
    simp
  obtain ⟨⟨text, htext, hparse⟩, -⟩ := parse_excerpt hok rfl rfl hitem fun hmod => by cases hmod
  have hslice : Source.slice? ⟨"[<a,b>1]"⟩ 1 7 = some "<a,b>1" := by cbv
  obtain rfl : text = "<a,b>1" := Option.some.inj (htext.symm.trans hslice)
  exact ⟨_, item, hok, hitem, rfl, hparse⟩

end WeLang
