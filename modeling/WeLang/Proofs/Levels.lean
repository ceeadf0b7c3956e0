import WeLang.Proofs.Calling
import WeLang.Proofs.Excerpts
import WeLang.Proofs.Limits
import WeLang.Proofs.Replaying

/-!
# How deep a parse goes

The limit on nesting is about the nodes that are under construction, and the parse keeps
count of them: one more whenever a build begins, one less when it is over, whatever came of
it. That the count is right is not obvious, since most builds are given up, and because one
level that is not given back would be missing ever after. But every call of a parse is as deep
as there are builds open around it (`Running.depth_eq`), and leaves the count as it was
(`Running.depth_outcome`).

What the count is good for follows from two observations. A value inside a value is always a
child, so for every level of values there is a build, and of the levels to which the grammar
can be unfolded a parse never gets to see more than the limit, the outermost not counted
(`Goal.run_agree`). A tree is as high as the levels to which its values were unfolded, or
lower: a value behind edges of its own takes a build of which nothing is left in the tree.

The other one is that a child is asked for only behind a token that belongs to the node around
it, so that no more builds are open than bytes were read, and the one that is the whole
(`Call.Spaced`). So every limit above the size of the source lets every child in, and it makes
no difference which of them it is (`Parse.outcome_withDepth`). But an error would name it.
-/

namespace WeLang

variable {ν : Type} {cx : Context} {goal : Goal}

/-! ## Tokens before children -/

namespace Pattern

/-- Whether there is a token in whatever a pattern matches. -/
def eats : Pattern ν → Bool
  | .token .. | .never => true
  | .andThen p q => p.eats || q.eats
  | .orElse p q => p.eats && q.eats
  | .child p _ | .andEdit p _ => p.eats
  | .endOfInput | .done | .optional _ | .many _ | .separated .. | .ahead _ | .ref _ => false

/-- Whether a pattern asks for children only behind a token, their own tokens not counted;
`eaten` is whether there is one before the pattern. -/
def spaced : Bool → Pattern ν → Bool
  | _, .token .. | _, .endOfInput | _, .done | _, .never | _, .ref _ => true
  | eaten, .andThen p q => p.spaced eaten && q.spaced (eaten || p.eats)
  | eaten, .orElse p q => p.spaced eaten && q.spaced eaten
  | eaten, .optional p | eaten, .many p | eaten, .separated p _ | eaten, .ahead p |
    eaten, .andEdit p _ => p.spaced eaten
  | eaten, .child p _ => eaten && p.spaced false

end Pattern

open Matcher in
theorem Pattern.lt_of_eats {env : ν → Matcher} (henv : ∀ n, Lawful cx (fun _ => True) (env n))
    {p : Pattern ν} (hp : p.Fair) (heats : p.eats = true) {δ o o' : Nat} {d d' : Draft}
    (h : Went δ (p.run cx env) o d o' d') : o < o' := by
  have hle {q : Pattern ν} (hq : q.Honest fun _ => True) {δ o o' : Nat} {d d' : Draft}
      (h : Went δ (q.run cx env) o d o' d') : o ≤ o' := by
    obtain ⟨r, r', -, hrun⟩ := h
    exact ((run_lawful (refusals_any cx) henv hq).of_ok hrun).1
  induction p generalizing δ o o' d d' with
  | token kind note =>
      obtain ⟨x, hx, -, rfl, -⟩ := h.traced (token_traced cx kind note)
      have := Source.lexeme?_bounds hx
      omega
  | never =>
      obtain ⟨_, _, -, hrun⟩ := h
      cases hrun
  | endOfInput | done | optional | many | separated | ahead | ref => cases heats
  | andThen p q ihp ihq =>
      obtain ⟨hp, hq⟩ := hp.honest (by simp)
      obtain ⟨m, e, hfirst, hsecond⟩ :=
        went_andThen (run_lawful (refusals_any cx) henv hp) h
      rcases Bool.or_eq_true_iff.1 heats with heats | heats
      · exact Nat.lt_of_lt_of_le (ihp (.inl hp) heats hfirst) (hle hq hsecond)
      · exact Nat.lt_of_le_of_lt (hle hp hfirst) (ihq (.inl hq) heats hsecond)
  | orElse p q ihp ihq =>
      obtain ⟨hp, hq⟩ := hp.honest (by simp)
      obtain ⟨hpeats, hqeats⟩ := Bool.and_eq_true_iff.1 heats
      obtain ⟨r, r', hr, hrun⟩ := h
      rw [run, Matcher.orElse] at hrun
      split at hrun
      · next hfirst =>
          cases hrun
          exact ihp (.inl hp) hpeats ⟨r, r', hr, hfirst⟩
      · cases hrun
      · split at hrun
        · next hsecond =>
            cases hrun
            exact ihq hq hqeats ⟨_, r', rfl, hsecond⟩
        · cases hrun
        · cases hrun
  | child p attach ih =>
      obtain ⟨n, ⟨-, e, hinner, -⟩, -⟩ := went_child h
      exact ih (.inl (hp.honest (by simp)).1) heats hinner
  | andEdit p edit ih =>
      obtain ⟨e, hinner, -⟩ := went_andEdit h
      exact ih (.inl (hp.honest (by simp)).1) heats hinner

namespace Call

/-- A call around which no more nodes are under construction than there are bytes before it,
and one for the whole; if a token of the innermost of these nodes was read, no more than bytes
are enough. -/
def Spaced (c : Call ν) : Prop :=
  ∃ eaten, c.pattern.spaced eaten = true ∧ c.depth + eaten.toNat ≤ c.start + 1

theorem Asks.spaced {env : ν → Matcher} {c c' : Call ν} {nodes : Nat}
    (henv : ∀ n, Matcher.Lawful cx (fun _ => True) (env n)) (h : c.Asks cx env nodes c')
    (hc : c.pattern.Fair) (hspaced : c.Spaced) : c'.Spaced := by
  obtain ⟨-, hle, -, hdepth, -⟩ := h.handsOn henv hc
  obtain ⟨eaten, hspaced, hroom⟩ := hspaced
  have hbehind : c'.depth = c.depth → c'.depth + eaten.toNat ≤ c'.start + 1 := by omega
  cases h with
  | first | left => exact ⟨eaten, (Bool.and_eq_true_iff.1 hspaced).1, hroom⟩
  | right => exact ⟨eaten, (Bool.and_eq_true_iff.1 hspaced).2, hbehind hdepth⟩
  | optional | item | ahead | andEdit => exact ⟨eaten, hspaced, hroom⟩
  | many | further => exact ⟨eaten, hspaced, hbehind hdepth⟩
  | separator => exact ⟨eaten, rfl, hbehind hdepth⟩
  | @second p q o m s t ran =>
      refine ⟨_, (Bool.and_eq_true_iff.1 hspaced).2, ?_⟩
      cases heats : p.eats with
      | false => simpa using hbehind hdepth
      | true =>
          have hlt : Call.start ⟨.andThen p q, o, s⟩ < Call.start ⟨q, m, t⟩ :=
            Pattern.lt_of_eats henv (.inl (hc.honest (by simp)).1) heats
              ⟨s.progress, t.progress, rfl, ran⟩
          rw [Bool.or_true, Bool.toNat_true]
          omega
  | child =>
      obtain ⟨rfl, hinner⟩ := Bool.and_eq_true_iff.1 hspaced
      refine ⟨false, hinner, ?_⟩
      simp only [Bool.toNat_true, Bool.toNat_false] at hroom ⊢
      omega

end Call

/-! ## The calls of a parse -/

/-- The pattern of a whole source. -/
def Goal.pattern : Goal → Pattern Nonterminal
  | .module => Grammar.module (.ref .value)
  | .value => Grammar.soleValue (.ref .value)

theorem Goal.matcher_eq (goal : Goal) (cx : Context) :
    goal.matcher cx =
      goal.pattern.run cx fun _ => Grammar.valueWithin cx (cx.limits.maxDepth + 1) := by
  cases goal <;> rfl

/-- The calls of a parse: that of the pattern of the goal, for which the first build was
begun, whatever a call asks, and what a name stands for where it was asked for by its name.
With a call goes how many builds are open around it, and how many levels of values the
grammar can be unfolded to there. -/
inductive Running (goal : Goal) (cx : Context) : Nat → Nat → Call Nonterminal → Prop
  | root {progress : Progress} (entered : cx.enter 0 .none = .ok () progress) :
      Running goal cx 1 (cx.limits.maxDepth + 1) ⟨goal.pattern, 0, ⟨.blank, progress⟩⟩
  | asks {builds levels nodes : Nat} {c c' : Call Nonterminal}
      (running : Running goal cx builds levels c)
      (asked : c.Asks cx (fun _ => Grammar.valueWithin cx levels) nodes c') :
      Running goal cx (builds + nodes) levels c'
  | value {builds levels o : Nat} {s : State}
      (running : Running goal cx builds (levels + 1) ⟨.ref .value, o, s⟩) :
      Running goal cx builds levels ⟨Grammar.value (.ref .value), o, s⟩

/-- What a call comes to. -/
def Call.outcome (cx : Context) (levels : Nat) (c : Call Nonterminal) : Step :=
  c.pattern.run cx (fun _ => Grammar.valueWithin cx levels) c.start c.state

theorem Grammar.values_lawful (cx : Context) (levels : Nat) (_ : Nonterminal) :
    Matcher.Lawful cx (fun _ => True) (valueWithin cx levels) :=
  valueWithin_lawful_of (refusals_any cx) levels

theorem Goal.pattern_fair (goal : Goal) : goal.pattern.Fair := by
  cases goal
  · exact .inl (Grammar.module_honest trivial)
  · exact .inl (Grammar.soleValue_honest trivial)

theorem Goal.pattern_spaced (goal : Goal) : goal.pattern.spaced false = true := by
  cases goal <;> rfl

theorem Grammar.value_spaced : (value (.ref Nonterminal.value)).spaced false = true :=
  rfl

namespace Running

variable {builds levels o : Nat} {c : Call Nonterminal} {s : State}

theorem fair (h : Running goal cx builds levels c) : c.pattern.Fair := by
  induction h with
  | root => exact goal.pattern_fair
  | asks _ asked ih => exact (asked.handsOn (Grammar.values_lawful cx _) ih).fair
  | value => exact .inl (Grammar.value_honest Grammar.ref_honest)

/-- The count of builds is right at every call. -/
theorem depth_eq (h : Running goal cx builds levels c) : c.depth = builds := by
  induction h with
  | root entered =>
      obtain ⟨-, rfl⟩ := Context.enter_eq_ok.1 entered
      rfl
  | asks running asked ih =>
      rw [(asked.handsOn (Grammar.values_lawful cx _) running.fair).depth, ih]
  | value _ ih => exact ih

theorem pos (h : Running goal cx builds levels c) : 0 < builds := by
  induction h with
  | root => exact Nat.zero_lt_one
  | asks _ _ ih => exact Nat.lt_add_right _ ih
  | value _ ih => exact ih

theorem le_maxDepth (h : Running goal cx builds levels c) : builds ≤ cx.limits.maxDepth := by
  induction h with
  | root entered => exact (Context.enter_eq_ok.1 entered).1
  | asks running asked ih =>
      have hroom := (asked.handsOn (Grammar.values_lawful cx _) running.fair).room
      rw [(running.asks asked).depth_eq, running.depth_eq] at hroom
      omega
  | value _ ih => exact ih

theorem start_le (h : Running goal cx builds levels c) : c.start ≤ cx.source.size := by
  induction h with
  | root => exact Nat.zero_le _
  | asks running asked ih =>
      have hbound := (asked.handsOn (Grammar.values_lawful cx _) running.fair).bound
      omega
  | value _ ih => exact ih

theorem spaced (h : Running goal cx builds levels c) : c.Spaced := by
  induction h with
  | root entered =>
      obtain ⟨-, rfl⟩ := Context.enter_eq_ok.1 entered
      exact ⟨false, goal.pattern_spaced, Nat.le_refl 1⟩
  | asks running asked ih => exact asked.spaced (Grammar.values_lawful cx _) running.fair ih
  | value _ ih =>
      obtain ⟨eaten, -, hroom⟩ := ih
      exact ⟨false, Grammar.value_spaced, Nat.le_trans (Nat.le_add_right ..) hroom⟩

/-- The count of builds is right at the end of every call as well. -/
theorem depth_outcome (h : Running goal cx builds levels c) :
    (c.outcome cx levels).progress.depth = builds := by
  rw [Call.outcome, h.fair.depth_run (Grammar.values_lawful cx levels)]
  exact h.depth_eq

end Running

/-! ## Levels that are not needed -/

theorem Grammar.soleValue_sheltered : (soleValue (.ref Nonterminal.value)).Sheltered :=
  ⟨value_sheltered, trivial, trivial⟩

theorem Goal.pattern_sheltered (goal : Goal) : goal.pattern.Sheltered := by
  cases goal
  · exact Grammar.module_sheltered
  · exact Grammar.soleValue_sheltered

/-- What is referred to is asked for as a child. -/
theorem Call.Asks.sheltered {env : ν → Matcher} {c c' : Call ν} {nodes : Nat}
    (h : c.Asks cx env nodes c') (hc : c.pattern.Sheltered) :
    c'.pattern.Sheltered ∨ nodes = 1 ∧ ∃ name, c'.pattern = .ref name := by
  cases h with
  | first | left => exact .inl hc.1
  | second | right => exact .inl hc.2
  | optional | many | item | further | ahead | andEdit => exact .inl hc
  | separator => exact .inl trivial
  | @child p =>
      cases p with
      | ref name => exact .inr ⟨rfl, name, rfl⟩
      | _ => exact .inl hc

/-- The grammar is unfolded one level at most for each build, and there is one build that it
is not unfolded for. -/
theorem Running.levels_le {builds levels : Nat} {c : Call Nonterminal}
    (h : Running goal cx builds levels c) :
    c.pattern.Sheltered ∧ cx.limits.maxDepth + 2 ≤ builds + levels ∨
      (∃ name, c.pattern = .ref name) ∧ cx.limits.maxDepth + 3 ≤ builds + levels := by
  induction h with
  | root => exact .inl ⟨goal.pattern_sheltered, by omega⟩
  | asks _ asked ih =>
      rcases ih with ⟨hsheltered, hlevels⟩ | ⟨⟨name, hname⟩, -⟩
      · rcases asked.sheltered hsheltered with hsheltered | ⟨rfl, hname⟩
        · exact .inl ⟨hsheltered, by omega⟩
        · exact .inr ⟨hname, by omega⟩
      · -- a name that is asked for asks nothing itself
        cases asked <;> cases hname
  | value _ ih =>
      rcases ih with ⟨hsheltered, -⟩ | ⟨-, hlevels⟩
      · exact hsheltered.elim
      · exact .inl ⟨Grammar.value_sheltered, by omega⟩

section Agreement

variable {depth : Nat} (hroom : ∀ {builds levels p attach o s},
  Running goal cx builds levels ⟨.child p attach, o, s⟩ →
    (cx.withDepth depth).enter o s.progress = cx.enter o s.progress)

include hroom

/-- A call of a parse comes to the same under the other limit, if the values do that are asked
for in it. -/
theorem Running.run_agree {builds levels : Nat} {c : Call Nonterminal} {value : Matcher}
    (hvalue : ∀ {builds o s}, Running goal cx builds levels ⟨.ref .value, o, s⟩ →
      value o s = Grammar.valueWithin cx levels o s)
    (h : Running goal cx builds levels c) :
    c.pattern.run (cx.withDepth depth) (fun _ => value) c.start c.state = c.outcome cx levels := by
  refine Pattern.run_agree (I := fun c => ∃ builds, Running goal cx builds levels c)
    (fun asked h => ?_) (fun h => ?_) (fun h => ?_) ⟨builds, h⟩
  · exact h.imp' _ fun _ running => running.asks asked
  · exact h.elim fun _ running => hroom running
  · exact h.elim fun _ running => hvalue running

/-- Where a value is asked for, two levels of it can be spared. -/
theorem Grammar.valueWithin_agree {builds levels levels' o : Nat} {s : State}
    (hlevels : levels ≤ levels' + 2) (h : Running goal cx builds levels ⟨.ref .value, o, s⟩) :
    valueWithin (cx.withDepth depth) levels' o s = valueWithin cx levels o s := by
  have henough {builds levels o : Nat} {s : State}
      (h : Running goal cx builds levels ⟨.ref .value, o, s⟩) : 3 ≤ levels := by
    have := h.le_maxDepth
    rcases h.levels_le with ⟨hsheltered, -⟩ | ⟨-, hlevels⟩
    · exact hsheltered.elim
    · omega
  induction levels' generalizing builds levels o s with
  | zero =>
      have := henough h
      omega
  | succ levels' ih =>
      obtain ⟨levels, rfl⟩ := Nat.exists_eq_add_of_le' (Nat.le_of_succ_le (henough h))
      exact Running.run_agree hroom (ih (by omega)) (.value h)

/-- One level less than the limit is enough for a whole source. -/
theorem Goal.run_agree {levels' : Nat} (hpos : 0 < cx.limits.maxDepth)
    (hlevels : cx.limits.maxDepth ≤ levels' + 1) :
    goal.pattern.run (cx.withDepth depth)
        (fun _ => Grammar.valueWithin (cx.withDepth depth) levels') 0
        ⟨.blank, Progress.none.deeper⟩ =
      goal.matcher cx 0 ⟨.blank, Progress.none.deeper⟩ := by
  rw [goal.matcher_eq]
  exact Running.run_agree hroom (Grammar.valueWithin_agree hroom (by omega))
    (.root (Context.enter_eq_ok.2 ⟨hpos, rfl⟩))

end Agreement

theorem Goal.matcher_eq_shallow (goal : Goal) (hpos : 0 < cx.limits.maxDepth) :
    goal.matcher cx 0 ⟨.blank, Progress.none.deeper⟩ =
      goal.pattern.run cx (fun _ => Grammar.valueWithin cx (cx.limits.maxDepth - 1)) 0
        ⟨.blank, Progress.none.deeper⟩ :=
  (Goal.run_agree (fun _ => rfl) hpos (Nat.le_of_eq (Nat.sub_add_cancel hpos).symm)).symm

/-! ## The height of a tree -/

theorem foldl_max_le {k : Nat} {xs : List Nat} {a : Nat} :
    xs.foldl max a ≤ k ↔ a ≤ k ∧ ∀ x ∈ xs, x ≤ k := by
  induction xs generalizing a with
  | nil => simp
  | cons x xs ih => rw [List.foldl_cons, ih, Nat.max_le, List.forall_mem_cons, and_assoc]

theorem Node.height_le_iff {n : Node} {k : Nat} :
    n.height ≤ k + 1 ↔ ∀ c ∈ n.children, c.height ≤ k := by
  rw [height_eq, Nat.succ_le_succ_iff, foldl_max_le, List.forall_mem_map]
  exact and_iff_right (Nat.zero_le k)

theorem Node.height_child_le {n c : Node} (hc : c ∈ n.children) : c.height ≤ n.height := by
  rw [n.height_eq]
  exact Nat.le_succ_of_le (height_le_iff.1 (Nat.le_of_eq n.height_eq) c hc)

/-- A tree of nested nodes that has at most so many levels. -/
abbrev Node.Low (levels : Nat) (n : Node) : Prop :=
  n.Everywhere Nested ∧ n.height ≤ levels

theorem Node.low_succ {n : Node} {levels : Nat} (hn : n.Nested)
    (hchildren : ∀ c ∈ n.children, c.Low levels) : n.Low (levels + 1) :=
  ⟨everywhere_iff.2 ⟨hn, fun c hc => (hchildren c hc).1⟩,
    height_le_iff.2 fun c hc => (hchildren c hc).2⟩

namespace Grammar

variable {src : Source} {levels o o' : Nat} {d : Draft}

/-- A value has one level more than the values inside it, and sometimes none. -/
theorem value_low {R : Nonterminal → Trace} {inner : Pattern Nonterminal}
    (hinner : (inner.Traces src R).Yields src (fun _ => True) (Node.Low levels))
    (h : (value inner).Traces src R o .blank o' d) :
    (d.finish (src.spanOf o o')).Low (levels + 1) := by
  have hlow (n : Node) (hn : n.Low levels) : n.Nested ∧ ∀ c ∈ n.children, c.Low levels := by
    obtain ⟨hnested, hchildren⟩ := Node.everywhere_iff.1 hn.1
    exact ⟨hnested, fun c hc =>
      ⟨hchildren c hc, Nat.le_trans (Node.height_child_le hc) hn.2⟩⟩
  obtain ⟨hnested, hchildren⟩ :=
    value_nested (fun _ _ => trivial) hinner hlow h trivial
  exact Node.low_succ hnested hchildren

theorem leaves_low (levels : Nat) :
    (Leaves src levels).Yields src (fun _ => True) (Node.Low levels) := by
  refine ⟨fun _ _ _ _ => leaves_le, fun _ _ _ _ _ => trivial, ?_⟩
  induction levels with
  | zero => exact fun _ _ _ hnone => hnone.elim
  | succ levels ih =>
      intro o o' e h _
      have hinner : ((Pattern.ref Nonterminal.value).Traces src fun _ =>
          Leaves src levels).Yields src (fun _ => True) (Node.Low levels) :=
        ⟨fun _ _ _ _ => leaves_le, fun _ _ _ _ _ => trivial, ih⟩
      exact value_low hinner h

end Grammar

variable {src : Source} {l : Limits} {p : Parsed}

theorem Goal.leaves_low {levels stop : Nat} {d : Draft}
    (h : goal.Leaves src levels 0 .blank stop d) :
    (d.finish (src.spanOf 0 stop)).Low (levels + 1) := by
  have hinner : ((Pattern.ref Nonterminal.value).Traces src fun _ =>
      Grammar.Leaves src levels).Yields src (fun _ => True) (Node.Low levels) :=
    Grammar.leaves_low levels
  cases goal with
  | module =>
      obtain ⟨d, hd, -, rfl⟩ := Grammar.traces_module (fun _ _ => trivial) (fun _ _ => trivial)
        Span.Before.apart (fun _ _ _ _ _ => Grammar.leaves_le) hinner h
      have hstart : (src.spanOf 0 stop).start ≤ src.skipBlanks 0 := Nat.min_le_left ..
      obtain ⟨hnested, hchildren⟩ := Draft.nested_entries
        (p := .module d.usings.toList d.entryTable) hd rfl (fun _ h => by cases h) hstart
        (Nat.le_refl stop)
      exact Node.low_succ hnested hchildren
  | value =>
      obtain ⟨m, e, hvalue, _, _, ⟨_, ⟨-, -, rfl⟩, rfl⟩, rfl, rfl⟩ := h
      exact Grammar.value_low hinner hvalue

theorem Goal.pattern_traced (goal : Goal) (cx : Context) (levels : Nat) :
    Matcher.Traced (goal.Leaves cx.source levels)
      (goal.pattern.run cx fun _ => Grammar.valueWithin cx levels) := by
  have henv (n : Nonterminal) := Grammar.valueWithin_traced cx levels
  cases goal with
  | module => exact (Pattern.run_traced henv (Grammar.module_tidy Grammar.ref_tidy)).1
  | value => exact (Pattern.run_traced henv (Grammar.soleValue_tidy Grammar.ref_tidy)).1

/-- A tree is no higher than values may be nested. -/
theorem Node.height_le_of_parse (h : parse goal src l = .ok p) : p.node.height ≤ l.maxDepth := by
  have hpos := Parse.room_of_ok h
  obtain ⟨found, q, hout, rfl⟩ := parse_eq_ok.1 h
  obtain ⟨stop, t, hrun, rfl, -⟩ := Parse.run_of_outcome_ok hout
  rw [goal.matcher_eq_shallow hpos] at hrun
  have hheight := (goal.leaves_low (goal.pattern_traced ⟨src, l⟩ _ hrun)).2
  rwa [Nat.sub_add_cancel hpos] at hheight

/-! ## More levels than bytes -/

/-- Where the limit is above the size of the source, every child is let in, and so it is under
any higher limit. -/
theorem Running.enter_eq {builds levels depth o : Nat} {s : State} {p : Pattern Nonterminal}
    {attach : Node → Edit} (hsize : cx.source.size < cx.limits.maxDepth)
    (hle : cx.limits.maxDepth ≤ depth)
    (h : Running goal cx builds levels ⟨.child p attach, o, s⟩) :
    (cx.withDepth depth).enter o s.progress = cx.enter o s.progress := by
  obtain ⟨eaten, hspaced, hcount⟩ := h.spaced
  obtain ⟨rfl, -⟩ := Bool.and_eq_true_iff.1 hspaced
  have hstart : o ≤ cx.source.size := h.start_le
  have hdepth : s.progress.depth + 1 ≤ o + 1 := hcount
  have hroom : s.progress.depth < cx.limits.maxDepth := by omega
  exact (Context.enter_eq_ok.2 ⟨Nat.lt_of_lt_of_le hroom hle, rfl⟩).trans
    (Context.enter_eq_ok.2 ⟨hroom, rfl⟩).symm

/-- A limit above the size of the source is as good as any higher limit. -/
theorem Parse.outcome_withDepth {depth : Nat} (goal : Goal)
    (hsize : cx.source.size < cx.limits.maxDepth) (hle : cx.limits.maxDepth ≤ depth) :
    outcome goal (cx.withDepth depth) = outcome goal cx := by
  have hpos : 0 < cx.limits.maxDepth := Nat.zero_lt_of_lt hsize
  have hrun : goal.matcher (cx.withDepth depth) 0 ⟨.blank, Progress.none.deeper⟩ =
      goal.matcher cx 0 ⟨.blank, Progress.none.deeper⟩ := by
    rw [goal.matcher_eq (cx.withDepth depth)]
    exact Goal.run_agree (Running.enter_eq hsize hle) hpos
      (Nat.le_trans hle (Nat.le_add_right depth 2))
  rw [outcome_of_room hpos, outcome_of_room (Nat.lt_of_lt_of_le hpos hle), hrun]
  rfl

/-- An error of nesting names the limit. -/
theorem Parse.limit_of_nestingTooDeep {e : ParseError} {limit : Nat}
    (h : parse goal src l = .error e) (hcause : e.cause = .nestingTooDeep limit) :
    limit = l.maxDepth := by
  let E (cause : ParseError.Cause) : Prop := ∀ k, cause = .nestingTooDeep k → k = l.maxDepth
  have : ContentRefusals E := by constructor <;> simp [E]
  have hE : Refusals ⟨src, l⟩ E := by constructor <;> simp [E]
  rcases cause_of_parse hE h with h | h
  · exact h limit hcause
  · rw [hcause] at h
    cases h

/-- A parse with more levels than bytes is never broken off for nesting. -/
theorem Parse.ne_nestingTooDeep {e : ParseError} (hsize : src.size < l.maxDepth)
    (h : parse goal src l = .error e) (limit : Nat) : e.cause ≠ .nestingTooDeep limit := by
  intro hcause
  -- under a limit that is higher by one the parse ends in the same error, which names a limit
  have hout : outcome goal (Context.withDepth ⟨src, l⟩ (l.maxDepth + 1)) =
      outcome goal ⟨src, l⟩ := outcome_withDepth goal hsize (Nat.le_succ l.maxDepth)
  have hdeeper : parse goal src { l with maxDepth := l.maxDepth + 1 } = .error e := by
    rw [← h, parse, parse, ← hout]
    rfl
  have hlimit := limit_of_nestingTooDeep h hcause
  have hlimit' : limit = l.maxDepth + 1 := limit_of_nestingTooDeep hdeeper hcause
  omega

/-! ## The theorem -/

/-- How many nodes are said to be under construction when a parse is over. -/
def Parse.depth (goal : Goal) (cx : Context) : Nat :=
  match outcome goal cx with
  | .ok _ p | .error _ p => p.depth

theorem Parse.depth_eq_zero (goal : Goal) (cx : Context) : depth goal cx = 0 := by
  rcases Nat.eq_zero_or_pos cx.limits.maxDepth with hfull | hpos
  · rw [depth, outcome_of_full hfull]
    rfl
  · have hrun := goal.pattern_fair.depth_run (Grammar.values_lawful cx (cx.limits.maxDepth + 1))
      0 ⟨.blank, Progress.none.deeper⟩
    rw [← goal.matcher_eq] at hrun
    rw [depth, outcome_of_room hpos]
    generalize goal.matcher cx 0 ⟨.blank, Progress.none.deeper⟩ = out at hrun
    cases out <;> exact congrArg (· - 1) hrun

/-- The limit on nesting accounts for how deep a parse really goes. A tree that comes of it is
no higher than the limit; a limit above the size of the source is never the reason for an
error; and at every call of a parse, when it is asked and when it has answered, the count of
levels is the number of builds that are open, at least one and no more than the limit, so that
to leave a level is always to take one away, and none is left in the end. -/
theorem nesting_counted (goal : Goal) (src : Source) (l : Limits) :
    (∀ p, parse goal src l = .ok p → p.node.height ≤ l.maxDepth) ∧
    (src.size + 1 ≤ l.maxDepth → ∀ e limit, parse goal src l = .error e →
      e.cause ≠ .nestingTooDeep limit) ∧
    (∀ builds levels c, Running goal ⟨src, l⟩ builds levels c →
      c.depth = builds ∧ (c.outcome ⟨src, l⟩ levels).progress.depth = builds ∧
        0 < builds ∧ builds ≤ l.maxDepth) ∧
    Parse.depth goal ⟨src, l⟩ = 0 :=
  ⟨fun _ h => Node.height_le_of_parse h,
    fun hsize _ limit h => Parse.ne_nestingTooDeep hsize h limit,
    fun _ _ _ h => ⟨h.depth_eq, h.depth_outcome, h.pos, h.le_maxDepth⟩,
    Parse.depth_eq_zero goal ⟨src, l⟩⟩

/-- A list of one value needs two levels, and the value in it is asked for with both of them
taken. Of lists that are not closed, one level more than there are is enough to say what is
wrong with them, and one level less is not. -/
theorem nesting_counted_list :
    (∃ p, parse .value ⟨"[_]"⟩ ⟨none, 2⟩ = .ok p ∧ p.node.height ≤ 2) ∧
    (∃ c, Running .value ⟨⟨"[_]"⟩, ⟨none, 2⟩⟩ 2 3 c ∧ c.depth = 2 ∧ c.start = 1) ∧
    (∃ e, parse .value ⟨"[[["⟩ ⟨none, 4⟩ = .error e ∧ ∀ limit, e.cause ≠ .nestingTooDeep limit) ∧
    ∃ e, parse .value ⟨"[[["⟩ ⟨none, 3⟩ = .error e ∧ e.cause = .nestingTooDeep 3 := by
  obtain ⟨hheight, -, hcount, -⟩ := nesting_counted .value ⟨"[_]"⟩ ⟨none, 2⟩
  refine ⟨?_, ?_, ?_, ⟨_, by cbv, rfl⟩⟩
  · obtain ⟨p, hp⟩ : ∃ p, parse .value ⟨"[_]"⟩ ⟨none, 2⟩ = .ok p := ⟨_, by cbv⟩
    exact ⟨p, hp, hheight p hp⟩
  · have hroot : Running .value ⟨⟨"[_]"⟩, ⟨none, 2⟩⟩ 1 3 _ :=
      .root (Context.enter_eq_ok.2 ⟨by decide, rfl⟩)
    obtain ⟨t, hbracket⟩ : ∃ t, (Pattern.mark .listStart).run ⟨⟨"[_]"⟩, ⟨none, 2⟩⟩
        (fun _ : Nonterminal => Grammar.valueWithin ⟨⟨"[_]"⟩, ⟨none, 2⟩⟩ 3) 0
        ⟨.blank, Progress.none.deeper⟩ = .ok 1 t := ⟨_, by cbv⟩
    have hitems := ((hroot.asks .first).asks .left).asks .andEdit |>.asks (.second hbracket)
    have hitem := (hitems.asks .first).asks .item
    have hroom := (hcount _ _ _ hitem).1
    have hinner := hitem.asks (.child (Context.enter_eq_ok.2 ⟨?_, rfl⟩))
    · exact ⟨_, hinner, (hcount _ _ _ hinner).1, rfl⟩
    · exact Nat.lt_of_le_of_lt (Nat.le_of_eq hroom) (by decide)
  · obtain ⟨e, he⟩ : ∃ e, parse .value ⟨"[[["⟩ ⟨none, 4⟩ = .error e := ⟨_, by cbv⟩
    have hnever := (nesting_counted .value ⟨"[[["⟩ ⟨none, 4⟩).2.1 (by decide)
    exact ⟨e, he, fun limit => hnever e limit he⟩

end WeLang
