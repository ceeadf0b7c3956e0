import WeLang.Proofs.Tracing

/-!
# What the grammar leaves

The productions of the grammar are tidy (`Grammar.value_tidy`), so the tree of a source
can be read off the traces of its goal (`leaves_of_parse`), and of these one can be sure
that nothing of what was tried in vain is in them.

What a production leaves is then a matter of reading it from left to right. Values become
children or entries of the draft, marks and words leave nothing, and in the end the draft
is completed. While values are gathered, the edges of the draft stay what they were
(`Draft.Gathers`); only a signature sets them, and it sets both.
-/

namespace WeLang

variable {src : Source} {o o' : Nat}

/-! ## Tidiness -/

namespace Draft

theorem pushChild_adds (n : Node) : (pushChild n).Adds :=
  .modify fun d => { Extends.refl d with children := ⟨#[n], Array.push_eq_append⟩ }

theorem pushName_adds (name : String) : (pushName name).Adds :=
  .modify fun d => { Extends.refl d with names := ⟨#[name], Array.push_eq_append⟩ }

theorem pushKey_adds (key : String) (span : Span) : (pushKey key span).Adds :=
  .modify fun d => { Extends.refl d with keys := ⟨#[(key, span)], Array.push_eq_append⟩ }

theorem attachUsing_adds (chain : Node) : (attachUsing chain).Adds := by
  rw [attachUsing]
  split
  · next path _ =>
      exact .modify fun d => { Extends.refl d with usings := ⟨#[path], Array.push_eq_append⟩ }
  · exact .pure

/-- To attach the value of a key is to move on to the next key, with one entry more. -/
theorem attachEntry_of_pushKey {key : String} {span : Span} {value : Node} {d d' : Draft} :
    attachEntry value { d with keys := d.keys.push (key, span) } = .ok () d' ↔
      d.hasEntry key = false ∧ d' = { d with entries := d.entries.push (key, value) } := by
  simp only [attachEntry, Array.back?_push, Option.getD_some, Array.pop_push]
  show insertEntry key span value d = .ok () d' ↔ _
  rw [insertEntry]
  cases d.hasEntry key <;> simp [eq_comm]

end Draft

/-- A key: a name that is read at an offset, and a colon behind it. -/
structure Source.Key (src : Source) (o : Nat) (x : Lexeme) (o' : Nat) : Prop where
  here : src.lexeme? o = some x
  name : x.kind = .identifier
  colon : src.Token (.symbol .define) x.span.stop o'

theorem Source.Key.token {x : Lexeme} (h : src.Key o x o') :
    src.Token .identifier o x.span.stop :=
  ⟨x, h.here, h.name, rfl⟩

namespace Grammar

open Pattern

variable {ν : Type} {R : ν → Trace} {inner : Pattern ν}

theorem nested_harmless (h : inner.Tidy src R) : (nested inner).Harmless src R :=
  child_harmless h Draft.pushChild_adds

/-- What an entry leaves is one entry; the key has come and gone. -/
theorem traces_entry {d d' : Draft} (h : (entry inner).Traces src R o d o' d') :
    ∃ x m e, src.Key o x m ∧ inner.Traces src R m .blank o' e ∧ d.hasEntry x.text = false ∧
      d' = { d with entries := d.entries.push (x.text, e.finish (src.spanOf m o')) } := by
  obtain ⟨_, d₁, ⟨x, hx, hk, rfl, hkey⟩, m, d₂, ⟨y, hy, hcolon, hstop, hmark⟩, _, d₃,
    ⟨e, he, hattach⟩, rfl, rfl⟩ := h
  cases hkey
  cases hmark
  obtain ⟨hnew, rfl⟩ := Draft.attachEntry_of_pushKey.1 hattach
  exact ⟨x, m, e, ⟨hx, hk, y, hy, hcolon, hstop⟩, he, hnew, rfl⟩

theorem entry_harmless (h : inner.Tidy src R) : (entry inner).Harmless src R := by
  have hkey : (token .identifier fun x => Draft.pushKey x.text x.span).Harmless src R :=
    token_harmless _ fun x => Draft.pushKey_adds x.text x.span
  have hmark : (mark .define).Harmless src R := mark_harmless _
  refine ⟨?_, ⟨hkey.undoable, .inr ⟨hkey.growing, hmark.undoable, ?_⟩⟩, hkey.tidy, hmark.tidy, h,
    trivial⟩
  · -- the value takes the key away, so not all the parts add to the draft, but the whole does
    intro o d o' d' htrace
    obtain ⟨x, m, e, -, -, -, rfl⟩ := traces_entry htrace
    exact { Draft.Extends.refl d with entries := ⟨#[_], Array.push_eq_append⟩ }
  · -- and it comes last, so nothing is left to be undone when it misses
    exact .inr ⟨hmark.growing, trivial, .inl rfl⟩

theorem reverseChildrenFrom_extends {d e : Draft} (h : d.Extends e) :
    d.Extends (e.reverseChildrenFrom d.children.size) := by
  refine { h with children := ⟨(e.children.drop d.children.size).reverse, ?_⟩ }
  show e.children.take d.children.size ++ _ = _
  rw [Draft.Extends.take_stack h.children]

theorem clause_harmless (h : inner.Tidy src R) : (clause inner).Harmless src R := by
  have hvalues := many_harmless (nested_harmless h)
  refine ⟨?_, hvalues.undoable, hvalues.tidy⟩
  intro o d o' d' htrace
  obtain ⟨e, hmany, hedit⟩ := htrace
  cases hedit
  exact reverseChildrenFrom_extends (hvalues.growing hmany)

/-- A type that is noted is not on any stack. -/
theorem signature_harmless : (signature : Pattern ν).Harmless src R := by
  refine sequence_harmless ⟨mark_harmless _, token_harmless _ fun x => .modify fun d => ?_,
    token_harmless _ fun x => .modify fun d => ?_, mark_harmless _⟩
  · exact { Draft.Extends.refl d with }
  · exact { Draft.Extends.refl d with }

theorem segment_harmless : (segment : Pattern ν).Harmless src R :=
  token_harmless _ fun x => Draft.pushName_adds x.text

theorem segments_harmless :
    (Pattern.sequence [segment, .many (Pattern.sequence [.mark .identifierSeparator, segment])] :
      Pattern ν).Harmless src R :=
  sequence_harmless ⟨segment_harmless,
    many_harmless (sequence_harmless ⟨mark_harmless _, segment_harmless⟩)⟩

theorem items_harmless (h : inner.Tidy src R) :
    (Pattern.sequence [.mark .listStart, .separated (nested inner) (.symbol .listSeparator),
      .mark .listEnd]).Harmless src R :=
  sequence_harmless ⟨mark_harmless _, separated_harmless (nested_harmless h) _, mark_harmless _⟩

theorem entries_harmless (h : inner.Tidy src R) :
    (Pattern.sequence [.mark .mapStart, .many (entry inner), .mark .mapEnd]).Harmless src R :=
  sequence_harmless ⟨mark_harmless _, many_harmless (entry_harmless h), mark_harmless _⟩

theorem steps_harmless (h : inner.Tidy src R) :
    (Pattern.sequence [.optional (.word .fnWord), .mark .functionStart, .optional signature,
      clause inner, .many (Pattern.sequence [.mark .clauseSeparator, clause inner]),
      .mark .functionEnd]).Harmless src R :=
  sequence_harmless ⟨optional_harmless (expect_harmless _), mark_harmless _,
    optional_harmless signature_harmless, clause_harmless h,
    many_harmless (sequence_harmless ⟨mark_harmless _, clause_harmless h⟩), mark_harmless _⟩

theorem edges_harmless (h : inner.Tidy src R) :
    (Pattern.sequence [.mark .typeParameterStart, nested inner, .mark .listSeparator, nested inner,
      .mark .typeParameterEnd, nested inner]).Harmless src R :=
  sequence_harmless ⟨mark_harmless _, nested_harmless h, mark_harmless _, nested_harmless h,
    mark_harmless _, nested_harmless h⟩

theorem wrapped_harmless (h : inner.Tidy src R) (m : Symbol) (w : Keyword) :
    (wrapped inner m w).Harmless src R :=
  sequence_harmless ⟨firstOf_harmless ⟨mark_harmless _, expect_harmless _⟩, nested_harmless h⟩

/-- Only what comes last in a value takes anything out of the draft. -/
theorem value_tidy (h : inner.Tidy src R) : (value inner).Tidy src R := by
  have completed {p : Pattern ν} {edit : Draft → Edit} (hp : p.Harmless src R) :
      (andEdit p edit).Undoable src R ∧ (andEdit p edit).Tidy src R :=
    ⟨hp.undoable, hp.tidy⟩
  exact firstOf_tidy ⟨completed (items_harmless h), completed (entries_harmless h),
    completed (steps_harmless h), completed (edges_harmless h), completed (wrapped_harmless h _ _),
    completed (wrapped_harmless h _ _), completed (mark_harmless _), ⟨trivial, trivial⟩,
    completed segments_harmless, ⟨trivial, trivial⟩⟩

theorem useStatement_harmless : (useStatement : Pattern ν).Harmless src R :=
  sequence_harmless ⟨expect_harmless _,
    child_harmless segments_harmless.tidy Draft.attachUsing_adds⟩

theorem module_tidy (h : inner.Tidy src R) : («module» inner).Tidy src R :=
  ⟨(many_harmless useStatement_harmless).tidy, (many_harmless (entry_harmless h)).tidy, trivial,
    trivial⟩

theorem soleValue_tidy (h : inner.Tidy src R) : (soleValue inner).Tidy src R :=
  ⟨value_tidy h, trivial, trivial⟩

/-! ## Values within values -/

theorem ref_tidy {R : Nonterminal → Trace} : (Pattern.ref Nonterminal.value).Tidy src R :=
  trivial

/-- What a value leaves that has at most so many levels of values in it. -/
def Leaves (src : Source) : Nat → Trace
  | 0, _, _, _, _ => False
  | levels + 1, o, d, o', d' =>
      (value (.ref Nonterminal.value)).Traces src (fun _ => Leaves src levels) o d o' d'

theorem valueWithin_traced (cx : Context) (levels : Nat) :
    Matcher.Traced (Leaves cx.source levels) (valueWithin cx levels) := by
  induction levels with
  | zero => exact fun _ _ _ _ h => nomatch h
  | succ levels ih =>
      exact (run_traced (R := fun _ => Leaves cx.source levels) (fun _ => ih)
        (value_tidy ref_tidy)).1

end Grammar

/-- What a whole source leaves, with so many levels of values in it. -/
def Goal.Leaves (src : Source) (levels : Nat) : Goal → Trace
  | .module => (Grammar.module (.ref .value)).Traces src fun (_ : Nonterminal) =>
      Grammar.Leaves src levels
  | .value => (Grammar.soleValue (.ref .value)).Traces src fun (_ : Nonterminal) =>
      Grammar.Leaves src levels

theorem Goal.matcher_traced (goal : Goal) (cx : Context) :
    Matcher.Traced (goal.Leaves cx.source (cx.limits.maxDepth + 1)) (goal.matcher cx) := by
  have henv (n : Nonterminal) := Grammar.valueWithin_traced cx (cx.limits.maxDepth + 1)
  cases goal with
  | module => exact (Pattern.run_traced henv (Grammar.module_tidy Grammar.ref_tidy)).1
  | value => exact (Pattern.run_traced henv (Grammar.soleValue_tidy Grammar.ref_tidy)).1

/-- The tree of a source is what its goal leaves in a blank draft. -/
theorem leaves_of_parse {goal : Goal} {l : Limits} {p : Parsed} (h : parse goal src l = .ok p) :
    ∃ levels stop e, goal.Leaves src levels 0 .blank stop e ∧
      p.node = e.finish (src.spanOf 0 stop) := by
  obtain ⟨found, q, hout, rfl⟩ := parse_eq_ok.1 h
  obtain ⟨stop, t, hrun, rfl, -⟩ := Parse.run_of_outcome_ok hout
  exact ⟨_, _, _, goal.matcher_traced ⟨src, l⟩ hrun, rfl⟩

/-! ## What is gathered -/

/-- What is known of the values in a value. They begin where something may stand behind a
value, which is what `C` says of an offset, and where they end at such an offset, the nodes
that are made of them are of a certain sort. -/
structure Trace.Yields (src : Source) (C : Nat → Prop) (P : Node → Prop) (Q : Trace) : Prop where
  le : ∀ ⦃o d o' d'⦄, Q o d o' d' → o ≤ o'
  opens : ∀ ⦃o d o' d'⦄, Q o d o' d' → C o
  makes : ∀ ⦃o o' e⦄, Q o .blank o' e → C o' → P (e.finish (src.spanOf o o'))

/-- Some more things on a stack, each with a node: these are of a certain sort, stand between
two offsets, and any two of them stand to each other as `r` says. -/
def Stacked {α : Type} (node : α → Node) (P : Node → Prop) (r : Span → Span → Prop)
    (lo hi : Nat) (a b : Array α) : Prop :=
  ∃ xs : Array α, (∀ x ∈ xs, P (node x) ∧ lo ≤ (node x).span.start ∧ (node x).span.stop ≤ hi) ∧
    xs.toList.Pairwise (fun x y => r (node x).span (node y).span) ∧ b = a ++ xs

namespace Stacked

variable {α : Type} {node : α → Node} {P : Node → Prop} {r : Span → Span → Prop}
  {lo lo' hi hi' m : Nat} {a b c : Array α}

theorem refl (a : Array α) : Stacked node P r lo hi a a :=
  ⟨#[], by simp⟩

theorem push {x : α} (hx : P (node x)) (hlo : lo ≤ (node x).span.start)
    (hhi : (node x).span.stop ≤ hi) : Stacked node P r lo hi a (a.push x) :=
  ⟨#[x], by simpa using ⟨hx, hlo, hhi⟩, by simp, Array.push_eq_append⟩

theorem widen (h : Stacked node P r lo hi a b) (hlo : lo' ≤ lo) (hhi : hi ≤ hi') :
    Stacked node P r lo' hi' a b := by
  obtain ⟨xs, hxs, hpairs, heq⟩ := h
  refine ⟨xs, fun x hx => ?_, hpairs, heq⟩
  obtain ⟨hp, hstart, hstop⟩ := hxs x hx
  exact ⟨hp, by omega, by omega⟩

/-- What stands behind something else stands to it as `r` says. -/
theorem trans (hr : ∀ s t : Span, s.stop ≤ t.start → r s t) (h : Stacked node P r lo m a b)
    (h' : Stacked node P r lo' hi b c) (hm : m ≤ lo') (hlo : lo ≤ lo') (hhi : m ≤ hi) :
    Stacked node P r lo hi a c := by
  obtain ⟨xs, hxs, hpairs, rfl⟩ := h
  obtain ⟨ys, hys, hpairs', rfl⟩ := h'
  refine ⟨xs ++ ys, fun x hx => ?_, ?_, Array.append_assoc ..⟩
  · rcases Array.mem_append.1 hx with hx | hx
    · obtain ⟨hp, hstart, hstop⟩ := hxs x hx
      exact ⟨hp, hstart, by omega⟩
    · obtain ⟨hp, hstart, hstop⟩ := hys x hx
      exact ⟨hp, by omega, hstop⟩
  · rw [Array.toList_append, List.pairwise_append]
    refine ⟨hpairs, hpairs', fun x hx y hy => hr _ _ ?_⟩
    have := (hxs x (Array.mem_toList_iff.1 hx)).2.2
    have := (hys y (Array.mem_toList_iff.1 hy)).2.1
    omega

/-- In which order they are does not matter if `r` is the same both ways. -/
theorem reverse (hsymm : ∀ s t, r s t → r t s) (h : Stacked node P r lo hi a b) :
    Stacked node P r lo hi a (b.take a.size ++ (b.drop a.size).reverse) := by
  obtain ⟨xs, hxs, hpairs, rfl⟩ := h
  refine ⟨xs.reverse, fun x hx => hxs x (Array.mem_reverse.1 hx), ?_, by simp⟩
  rw [Array.toList_reverse, List.pairwise_reverse]
  exact hpairs.imp fun hxy => hsymm _ _ hxy

theorem all (h : Stacked node P r lo hi #[] b) :
    (∀ x ∈ b.toList, P (node x) ∧ lo ≤ (node x).span.start ∧ (node x).span.stop ≤ hi) ∧
      b.toList.Pairwise fun x y => r (node x).span (node y).span := by
  obtain ⟨xs, hxs, hpairs, rfl⟩ := h
  rw [Array.empty_append]
  exact ⟨fun x hx => hxs x (Array.mem_toList_iff.1 hx), hpairs⟩

end Stacked

/-- A draft to which children and entries of a certain sort were added between two offsets,
and whose edges are what they were. The value of an entry starts behind its key. -/
structure Draft.Gathers (src : Source) (P : Node → Prop) (r : Span → Span → Prop) (o o' : Nat)
    (d d' : Draft) : Prop where
  le : o ≤ o'
  children : Stacked id P r o o' d.children d'.children
  entries : Stacked Prod.snd P r (src.skipBlanks o + 1) o' d.entries d'.entries
  inType : d'.inType = d.inType
  outType : d'.outType = d.outType

theorem Source.Token.lt {kind : TokenKind} (h : src.Token kind o o') : src.skipBlanks o < o' := by
  obtain ⟨x, hx, -, rfl⟩ := h
  have := (lexeme?_eq_some.1 hx).1
  have := lexeme?_bounds hx
  omega

theorem Source.le_spanOf (src : Source) (h : o ≤ o') : o ≤ (src.spanOf o o').start :=
  Nat.le_min.2 ⟨src.le_skipBlanks o, h⟩

theorem Source.skipBlanks_mono (src : Source) (h : o ≤ o') :
    src.skipBlanks o ≤ src.skipBlanks o' := by
  rcases Nat.le_total o' (src.skipBlanks o) with hle | hle
  · exact Nat.le_of_eq (skipBlanks_of_le h hle).symm
  · exact Nat.le_trans hle (src.le_skipBlanks o')

namespace Draft.Gathers

variable {P : Node → Prop} {r : Span → Span → Prop} {d d' d'' : Draft} {m m' : Nat}

theorem refl (P : Node → Prop) (r : Span → Span → Prop) (h : o ≤ o') (d : Draft) :
    d.Gathers src P r o o' d :=
  ⟨h, .refl _, .refl _, rfl, rfl⟩

theorem widen (h : Gathers src P r m m' d d') (hlo : o ≤ m) (hhi : m' ≤ o') :
    Gathers src P r o o' d d' :=
  ⟨Nat.le_trans hlo (Nat.le_trans h.le hhi), h.children.widen hlo hhi,
    h.entries.widen (Nat.succ_le_succ (src.skipBlanks_mono hlo)) hhi, h.inType, h.outType⟩

theorem trans (hr : ∀ s t : Span, s.stop ≤ t.start → r s t) (h : Gathers src P r o m d d')
    (h' : Gathers src P r m o' d' d'') : Gathers src P r o o' d d'' := by
  have hmono := src.skipBlanks_mono h.le
  have hskip := src.le_skipBlanks m
  exact ⟨Nat.le_trans h.le h'.le, h.children.trans hr h'.children (Nat.le_refl m) h.le h'.le,
    h.entries.trans hr h'.entries (by omega) (by omega) h'.le, h'.inType.trans h.inType,
    h'.outType.trans h.outType⟩

theorem reverse (hsymm : ∀ s t, r s t → r t s) (h : Gathers src P r o o' d d') :
    Gathers src P r o o' d (d'.reverseChildrenFrom d.children.size) :=
  { h with children := h.children.reverse hsymm }

end Draft.Gathers

namespace Grammar

open Pattern

variable {ν : Type} {R : ν → Trace} {inner : Pattern ν} {C : Nat → Prop} {P : Node → Prop}
  {r : Span → Span → Prop} {d d' : Draft}

theorem traces_expect {kind : TokenKind}
    (h : (expect kind : Pattern ν).Traces src R o d o' d') : src.Token kind o o' ∧ d' = d := by
  obtain ⟨x, hx, hk, hstop, hnote⟩ := h
  refine ⟨⟨x, hx, hk, hstop⟩, ?_⟩
  injection hnote with _ hdraft
  exact hdraft.symm

/-- Either both edges are declared or neither is. -/
theorem traces_signature
    (h : (optional signature : Pattern ν).Traces src R o .blank o' d') :
    o ≤ o' ∧ ∃ input output : Option Ty, input.isSome = output.isSome ∧
      d' = { Draft.blank with inType := input, outType := output } := by
  rcases h with ⟨_, d₁, hopen, _, d₂, hinput, _, d₃, houtput, _, d₄, hclose, rfl, rfl⟩ | ⟨rfl, rfl⟩
  · obtain ⟨hstart, rfl⟩ := traces_expect hopen
    obtain ⟨hend, rfl⟩ := traces_expect hclose
    obtain ⟨x, hx, -, rfl, hinput⟩ := hinput
    obtain ⟨y, hy, -, rfl, houtput⟩ := houtput
    cases hinput
    cases houtput
    have := hstart.le
    have := hend.le
    have := Source.lexeme?_bounds hx
    have := Source.lexeme?_bounds hy
    exact ⟨by omega, some (.leaf x.text), some (.leaf y.text), rfl, rfl⟩
  · exact ⟨Nat.le_refl _, none, none, rfl, rfl⟩

section Gathering

variable (hC : ∀ {o o' : Nat} {kind : TokenKind}, src.Token kind o o' →
    kind ≠ .symbol .identifierSeparator → C o)
  (hr : ∀ s t : Span, s.stop ≤ t.start → r s t) (hsymm : ∀ s t : Span, r s t → r t s)
  (hinner : (inner.Traces src R).Yields src C P)

include hinner in
theorem traces_nested (h : (nested inner).Traces src R o d o' d') (hrest : C o') :
    ∃ n, P n ∧ o ≤ n.span.start ∧ n.span.stop = o' ∧
      d' = { d with children := d.children.push n } := by
  obtain ⟨e, he, hattach⟩ := h
  cases hattach
  exact ⟨_, hinner.makes he hrest, src.le_spanOf (hinner.le he), rfl, rfl⟩

include hinner in
theorem nested_gathers (h : (nested inner).Traces src R o d o' d') (hrest : C o') :
    d.Gathers src P r o o' d' := by
  have hle := hinner.le h.choose_spec.1
  obtain ⟨n, hn, hstart, hstop, rfl⟩ := traces_nested hinner h hrest
  exact { Draft.Gathers.refl P r hle d with
          children := .push hn hstart (Nat.le_of_eq hstop) }

include hC in
theorem entry_opens (h : (entry inner).Traces src R o d o' d') : C o := by
  obtain ⟨_, _, _, hkey, -⟩ := traces_entry h
  exact hC hkey.token (by simp)

include hinner in
theorem entry_gathers (h : (entry inner).Traces src R o d o' d') (hrest : C o') :
    d.Gathers src P r o o' d' := by
  obtain ⟨x, m, e, hkey, he, -, rfl⟩ := traces_entry h
  have hlt := hkey.token.lt
  have hle := hkey.colon.le
  have hle' := hinner.le he
  have hstart := src.le_spanOf hle'
  have hskip := src.le_skipBlanks o
  have hpush : Stacked Prod.snd P r (src.skipBlanks o + 1) o' d.entries
      (d.entries.push (x.text, e.finish (src.spanOf m o'))) :=
    .push (hinner.makes he hrest)
      (show src.skipBlanks o + 1 ≤ (src.spanOf m o').start by omega) (Nat.le_refl o')
  exact ⟨by omega, .refl _, hpush, rfl, rfl⟩

include hr in
/-- What every round gathers, a repetition gathers, if every round begins where something may
stand behind a value. -/
theorem star_gathers {Q : Trace} (h : Trace.Star Q o d o' d') (hrest : C o')
    (hopens : ∀ ⦃o d o' d'⦄, Q o d o' d' → C o)
    (hQ : ∀ ⦃o d o' d'⦄, Q o d o' d' → C o' → d.Gathers src P r o o' d') :
    C o ∧ d.Gathers src P r o o' d' := by
  induction h with
  | refl o d => exact ⟨hrest, .refl P r (Nat.le_refl o) d⟩
  | step head _ ih =>
      obtain ⟨hnext, htail⟩ := ih hrest
      exact ⟨hopens head, (hQ head hnext).trans hr htail⟩

include hr hsymm hinner in
theorem clause_gathers (h : (clause inner).Traces src R o d o' d') (hrest : C o') :
    C o ∧ d.Gathers src P r o o' d' := by
  obtain ⟨e, hmany, hedit⟩ := h
  cases hedit
  obtain ⟨ho, he⟩ := star_gathers hr hmany hrest
    (fun _ _ _ _ h => hinner.opens h.choose_spec.1) fun _ _ _ _ => nested_gathers hinner
  exact ⟨ho, he.reverse hsymm⟩

include hC hr hinner in
theorem separated_gathers {separator : TokenKind}
    (hsep : separator ≠ .symbol .identifierSeparator)
    (h : (separated (nested inner) separator).Traces src R o d o' d') (hrest : C o') :
    d.Gathers src P r o o' d' := by
  rcases h with ⟨rfl, rfl⟩ | ⟨m, e, m', hfirst, hmore, hlast⟩
  · exact .refl P r (Nat.le_refl _) d'
  · have hend : C m' ∧ m' ≤ o' := by
      rcases hlast with rfl | hlast
      · exact ⟨hrest, Nat.le_refl _⟩
      · exact ⟨hC hlast hsep, hlast.le⟩
    have hitems : C m ∧ e.Gathers src P r m m' d' := by
      refine star_gathers hr hmore hend.1 (fun _ _ _ _ h => hC h.choose_spec.1 hsep) ?_
      intro o d o' d' h hrest
      obtain ⟨k, htoken, hitem⟩ := h
      exact (nested_gathers hinner hitem hrest).widen htoken.le (Nat.le_refl o')
    exact ((nested_gathers hinner hfirst hitems.1).trans hr hitems.2).widen (Nat.le_refl o) hend.2

/-! ## What productions leave -/

include hC hr hinner in
theorem traces_list (h : (list inner).Traces src R o .blank o' d') :
    ∃ m d, src.skipBlanks o < m ∧ Draft.blank.Gathers src P r m o' d ∧ d' = d.completeList := by
  obtain ⟨d, ⟨m, d₁, hopen, m', d₂, hitems, _, d₃, hclose, rfl, rfl⟩, hedit⟩ := h
  cases hedit
  obtain ⟨hstart, rfl⟩ := traces_expect hopen
  obtain ⟨hend, rfl⟩ := traces_expect hclose
  have hgathers := separated_gathers hC hr hinner (by simp) hitems (hC hend (by simp))
  exact ⟨m, _, hstart.lt, hgathers.widen (Nat.le_refl m) hend.le, rfl⟩

include hC hr hinner in
theorem traces_map (h : (map inner).Traces src R o .blank o' d') :
    ∃ m d, src.skipBlanks o < m ∧ Draft.blank.Gathers src P r m o' d ∧ d' = d.completeMap := by
  obtain ⟨d, ⟨m, d₁, hopen, m', d₂, hentries, _, d₃, hclose, rfl, rfl⟩, hedit⟩ := h
  cases hedit
  obtain ⟨hstart, rfl⟩ := traces_expect hopen
  obtain ⟨hend, rfl⟩ := traces_expect hclose
  obtain ⟨-, hgathers⟩ := star_gathers hr hentries (hC hend (by simp))
    (fun _ _ _ _ => entry_opens hC) fun _ _ _ _ => entry_gathers hinner
  exact ⟨m, _, hstart.lt, hgathers.widen (Nat.le_refl m) hend.le, rfl⟩

include hC hr hsymm hinner in
theorem traces_function (h : (function inner).Traces src R o .blank o' d') :
    ∃ (input output : Option Ty) (m : Nat) (d : Draft), input.isSome = output.isSome ∧
      src.skipBlanks o < m ∧
      Draft.Gathers src P r m o' { Draft.blank with inType := input, outType := output } d ∧
        d' = d.completeFunction := by
  obtain ⟨d, ⟨a, d₁, hword, m, d₂, hopen, m₁, d₃, hsign, m₂, d₄, hfirst, m₃, d₅, hrest, _, d₆,
    hclose, rfl, rfl⟩, hedit⟩ := h
  cases hedit
  obtain ⟨hstart, rfl⟩ := traces_expect hopen
  obtain ⟨hend, rfl⟩ := traces_expect hclose
  have hfn : src.skipBlanks o < m ∧ d₂ = .blank := by
    rcases hword with hword | ⟨rfl, rfl⟩
    · obtain ⟨htoken, rfl⟩ := traces_expect hword
      have := htoken.lt
      have := hstart.le
      exact ⟨by omega, rfl⟩
    · exact ⟨hstart.lt, rfl⟩
  obtain ⟨hlt, rfl⟩ := hfn
  obtain ⟨hle, input, output, hedges, rfl⟩ := traces_signature hsign
  have hmore : C m₂ ∧ d₄.Gathers src P r m₂ m₃ d := by
    refine star_gathers hr hrest (hC hend (by simp)) ?_ ?_ <;> intro o d o' d' h
    · obtain ⟨k, _, hsep, -⟩ := h
      exact hC (traces_expect hsep).1 (by simp)
    · intro hnext
      obtain ⟨k, _, hsep, _, _, hclause, rfl, rfl⟩ := h
      obtain ⟨htoken, rfl⟩ := traces_expect hsep
      exact (clause_gathers hr hsymm hinner hclause hnext).2.widen htoken.le (Nat.le_refl _)
  obtain ⟨-, hfirst⟩ := clause_gathers hr hsymm hinner hfirst hmore.1
  exact ⟨input, output, m, _, hedges, hlt, (hfirst.trans hr hmore.2).widen hle hend.le, rfl⟩

include hinner in
theorem traces_typeParameter (h : (typeParameter inner).Traces src R o .blank o' d')
    (hrest : C o') :
    ∃ (input output target : Node) (m : Nat), P target ∧
      src.Token (.symbol .typeParameterStart) o m ∧ m ≤ target.span.start ∧
        target.span.stop = o' ∧ m ≤ o' ∧
        d' = Draft.complete { Draft.blank with inType := some input.selfType,
                                               outType := some output.selfType }
          target.payload target.selfType := by
  obtain ⟨d, ⟨m, d₁, hopen, m₁, d₂, hinput, m₂, d₃, hsep, m₃, d₄, houtput, m₄, d₅, hclose, _, d₆,
    htarget, rfl, rfl⟩, hedit⟩ := h
  obtain ⟨htoken, rfl⟩ := traces_expect hopen
  obtain ⟨e, he, hinput⟩ := hinput
  obtain ⟨hcomma, rfl⟩ := traces_expect hsep
  obtain ⟨e', he', houtput⟩ := houtput
  obtain ⟨hend, rfl⟩ := traces_expect hclose
  have hle := hinner.le htarget.choose_spec.1
  obtain ⟨target, hmade, hstart, hstop, rfl⟩ := traces_nested hinner htarget hrest
  cases hinput
  cases houtput
  cases hedit
  have := hinner.le he
  have := hinner.le he'
  have := hcomma.le
  have := hend.le
  exact ⟨_, _, target, m, hmade, htoken, by omega, hstop, by omega, rfl⟩

include hinner in
theorem traces_wrapped {m : Symbol} {w : Keyword}
    (h : (wrapped inner m w).Traces src R o d o' d') (hrest : C o') :
    ∃ n, P n ∧ src.skipBlanks o < n.span.start ∧ n.span.stop = o' ∧
      d' = { d with children := d.children.push n } := by
  obtain ⟨a, d₁, hmark, _, d₂, hvalue, rfl, rfl⟩ := h
  have hstart : src.skipBlanks o < a ∧ d₁ = d := by
    rcases hmark with hmark | hmark | hmark
    · obtain ⟨htoken, rfl⟩ := traces_expect hmark
      exact ⟨htoken.lt, rfl⟩
    · obtain ⟨htoken, rfl⟩ := traces_expect hmark
      exact ⟨htoken.lt, rfl⟩
    · exact hmark.elim
  obtain ⟨hlt, rfl⟩ := hstart
  obtain ⟨n, hn, hle, hstop, rfl⟩ := traces_nested hinner hvalue hrest
  exact ⟨n, hn, by omega, hstop, rfl⟩

include hinner in
theorem traces_typeAlias (h : (typeAlias inner).Traces src R o .blank o' d') (hrest : C o') :
    ∃ n, P n ∧ src.skipBlanks o < n.span.start ∧ n.span.stop = o' ∧
      d' = Draft.blank.complete (.typeAlias n)
        ((Ty.leaf Claim.typeAlias).require Requirement.target n.selfType) := by
  obtain ⟨d, hwrapped, hedit⟩ := h
  obtain ⟨n, hn, hstart, hstop, rfl⟩ := traces_wrapped hinner hwrapped hrest
  cases hedit
  exact ⟨n, hn, hstart, hstop, rfl⟩

include hinner in
theorem traces_typeIdentity (h : (typeIdentity inner).Traces src R o .blank o' d')
    (hrest : C o') :
    ∃ n, P n ∧ src.skipBlanks o < n.span.start ∧ n.span.stop = o' ∧
      d' = Draft.blank.complete (.typeIdentity n)
        ((Ty.leaf Claim.typeIdentity).require Requirement.target n.selfType) := by
  obtain ⟨d, hwrapped, hedit⟩ := h
  obtain ⟨n, hn, hstart, hstop, rfl⟩ := traces_wrapped hinner hwrapped hrest
  cases hedit
  exact ⟨n, hn, hstart, hstop, rfl⟩

end Gathering

theorem traces_discard (h : (discard : Pattern ν).Traces src R o .blank o' d') :
    d' = Draft.blank.completeDiscard := by
  obtain ⟨d, hmark, hedit⟩ := h
  cases hedit
  obtain ⟨-, rfl⟩ := traces_expect hmark
  rfl

theorem traces_integer (h : (integer : Pattern ν).Traces src R o .blank o' d') :
    ∃ value, d' = Draft.blank.completeInteger value := by
  obtain ⟨x, -, -, -, hnote⟩ := h
  have hnote : Draft.attachNumeral x.text x.span .blank = .ok () d' := hnote
  rw [Draft.attachNumeral] at hnote
  cases hvalue : Numeral.value x.text with
  | ok value =>
      rw [hvalue] at hnote
      cases hnote
      exact ⟨value, rfl⟩
  | error cause =>
      rw [hvalue] at hnote
      cases hnote

theorem traces_string (h : (string : Pattern ν).Traces src R o .blank o' d') :
    ∃ text, d' = Draft.blank.completeString text := by
  obtain ⟨x, -, -, -, hnote⟩ := h
  cases hnote
  exact ⟨_, rfl⟩

theorem traces_segment (h : (segment : Pattern ν).Traces src R o d o' d') :
    ∃ name, d' = { d with names := d.names.push name } := by
  obtain ⟨x, -, -, -, hnote⟩ := h
  cases hnote
  exact ⟨x.text, rfl⟩

theorem traces_segments (h : (many (Pattern.sequence [.mark .identifierSeparator, segment]) :
      Pattern ν).Traces src R o d o' d') :
    ∃ names, d' = { d with names := d.names ++ names } := by
  induction h with
  | refl o d => exact ⟨#[], by simp⟩
  | step head _ ih =>
      obtain ⟨_, _, hmark, _, _, hname, rfl, rfl⟩ := head
      obtain ⟨-, rfl⟩ := traces_expect hmark
      obtain ⟨name, rfl⟩ := traces_segment hname
      obtain ⟨names, rfl⟩ := ih
      exact ⟨#[name] ++ names, by simp⟩

/-- A chain has a first name, and further names come behind it. -/
theorem traces_identifierChain (h : (identifierChain : Pattern ν).Traces src R o .blank o' d') :
    ∃ path, path ≠ [] ∧
      d' = Draft.blank.complete (.identifierChain path) (.leaf (".".intercalate path)) := by
  obtain ⟨d, ⟨_, d₁, hfirst, _, d₂, hrest, rfl, rfl⟩, hedit⟩ := h
  obtain ⟨name, rfl⟩ := traces_segment hfirst
  obtain ⟨names, rfl⟩ := traces_segments hrest
  cases hedit
  refine ⟨name :: names.toList, List.cons_ne_nil _ _, ?_⟩
  simp [Draft.completeChain, Draft.takeNames, Draft.blank]

theorem useStatement_opens (hC : ∀ {o o' : Nat} {kind : TokenKind}, src.Token kind o o' →
      kind ≠ .symbol .identifierSeparator → C o)
    (h : (useStatement : Pattern ν).Traces src R o d o' d') : C o := by
  obtain ⟨m, _, hword, -⟩ := h
  exact hC (traces_expect hword).1 (by simp)

theorem attachUsing_gathers {n : Node} (h : Draft.attachUsing n d = .ok () d') (hle : o ≤ o') :
    d.Gathers src P r o o' d' := by
  rw [Draft.attachUsing] at h
  cases hp : n.payload <;>
    · rw [hp] at h
      cases h
      exact { Draft.Gathers.refl P r hle d with }

theorem useStatement_gathers (hR : ∀ n, ∀ ⦃o d o' d'⦄, R n o d o' d' → o ≤ o')
    (h : (useStatement : Pattern ν).Traces src R o d o' d') : d.Gathers src P r o o' d' := by
  have hle := Traces.le hR h
  obtain ⟨m, _, hword, _, _, ⟨e, -, hattach⟩, rfl, rfl⟩ := h
  obtain ⟨-, rfl⟩ := traces_expect hword
  exact attachUsing_gathers hattach hle

theorem traces_module (hC : ∀ {o o' : Nat} {kind : TokenKind}, src.Token kind o o' →
      kind ≠ .symbol .identifierSeparator → C o)
    (hspent : ∀ o, src.isSpent o = true → C o) (hr : ∀ s t : Span, s.stop ≤ t.start → r s t)
    (hR : ∀ n, ∀ ⦃o d o' d'⦄, R n o d o' d' → o ≤ o')
    (hinner : (inner.Traces src R).Yields src C P)
    (h : («module» inner).Traces src R o .blank o' d') :
    ∃ d, Draft.blank.Gathers src P r o o' d ∧ src.size ≤ o' ∧ d' = d.completeModule := by
  obtain ⟨d, ⟨m, d₁, husings, m', d₂, hentries, _, d₃, hend, rfl, rfl⟩, hedit⟩ := h
  obtain ⟨hend, rfl, rfl⟩ := hend
  cases hedit
  obtain ⟨hm, hentries⟩ := star_gathers hr hentries (hspent m' hend)
    (fun _ _ _ _ => entry_opens hC) (fun _ _ _ _ => entry_gathers hinner)
  obtain ⟨-, husings⟩ := star_gathers (P := P) hr husings hm
    (fun _ _ _ _ => useStatement_opens hC) (fun _ _ _ _ h _ => useStatement_gathers hR h)
  have hsize : src.size ≤ src.skipBlanks m' := by simpa [Source.isSpent] using hend
  exact ⟨_, (husings.trans hr hentries).widen (Nat.le_refl o) (src.le_skipBlanks m'), hsize, rfl⟩

end Grammar

end WeLang
