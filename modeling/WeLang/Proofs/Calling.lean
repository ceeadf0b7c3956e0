import WeLang.Proofs.Composing

/-!
# What a matcher asks

A matcher that is put together from others does nothing but ask them, each at an offset and
in a state, and to each way to put matchers together belongs a way to ask. `Call.Asks` says
which call asks which, and how many nodes are put under construction for that: one if a child
is asked for, and otherwise none. So the run of a pattern is a tree of calls, and those that
are open at some moment are the ones from its root to the call that is just being answered.

What matchers keep to can now be said of calls, from the outside in. A call starts at or
behind where the one that asks it has started, and it is as deep as that one, or deeper by
the node that was begun for it (`Call.Asks.handsOn`). And what a run comes to is settled by
the calls of it: two ways to run a pattern come to the same if they agree on the children that
they let in and on what names stand for, wherever the first of them asks (`Pattern.run_agree`).
-/

namespace WeLang

variable {ν : Type} {cx : Context} {env : ν → Matcher} {E : ParseError.Cause → Prop}

/-! ## Laps of a repetition -/

namespace Matcher

/-- From an offset and a state to another one by rounds of a repetition, each of which is
followed by another. -/
inductive Laps (size : Nat) (round : Nat → State → Round) : Nat → State → Nat → State → Prop
  | refl (pos : Nat) (s : State) : Laps size round pos s pos s
  | lap {pos next m : Nat} {s t u : State} (again : round pos s = .again next t)
      (lt : pos < next) (left : pos < size) (rest : Laps size round next t m u) :
      Laps size round pos s m u

/-- Repetitions whose rounds are the same wherever the first of them gets are the same. -/
theorem rounds_congr {size : Nat} {round round' : Nat → State → Round} {pos : Nat} {s : State}
    (h : ∀ m t, Laps size round pos s m t → round' m t = round m t) :
    rounds size round' pos s = rounds size round pos s := by
  refine rounds_induction (motive := fun pos s out =>
    (∀ m t, Laps size round pos s m t → round' m t = round m t) →
      rounds size round' pos s = out) ?_ ?_ ?_ ?_ pos s h
  · intro pos s stop t hstop h
    rw [rounds, h pos s (.refl ..), hstop]
  · intro pos s e t hfail h
    rw [rounds, h pos s (.refl ..), hfail]
  · intro pos s next t hagain hlast h
    rw [rounds, h pos s (.refl ..), hagain]
    simp only [hlast, if_false]
  · intro pos s next t hagain hlt hleft ih h
    rw [rounds, h pos s (.refl ..), hagain]
    simp only [hlt, hleft, and_self, if_true]
    exact ih fun m u hlaps => h m u (.lap hagain hlt hleft hlaps)

theorem Laps.later {round : Nat → State → Round} {pos m : Nat} {s t : State}
    (h : Laps cx.source.size round pos s m t)
    (hround : ∀ pos s, RoundKept cx E pos s (round pos s)) :
    pos ≤ m ∧ m ≤ max pos cx.source.size ∧ s.progress.Later t.progress := by
  induction h with
  | refl pos s => exact ⟨Nat.le_refl _, Nat.le_max_left .., .refl _⟩
  | @lap pos next m s t u again _ _ _ ih =>
      have hkept := hround pos s
      rw [again] at hkept
      cases hkept with
      | again le bound later =>
          obtain ⟨hle, hbound, hlater⟩ := ih
          exact ⟨by omega, by omega, later.trans hlater⟩

end Matcher

/-! ## Calls -/

/-- A pattern that is asked at an offset, in a state. -/
structure Call (ν : Type) where
  pattern : Pattern ν
  start : Nat
  state : State

namespace Call

/-- How many nodes are said to be under construction when a pattern is asked. -/
def depth (c : Call ν) : Nat :=
  c.state.progress.depth

/-- One call asks another, for which so many nodes more are put under construction. -/
inductive Asks (cx : Context) (env : ν → Matcher) : Call ν → Nat → Call ν → Prop
  | first {p q : Pattern ν} {o : Nat} {s : State} :
      Asks cx env ⟨.andThen p q, o, s⟩ 0 ⟨p, o, s⟩
  | second {p q : Pattern ν} {o m : Nat} {s t : State} (ran : p.run cx env o s = .ok m t) :
      Asks cx env ⟨.andThen p q, o, s⟩ 0 ⟨q, m, t⟩
  | left {p q : Pattern ν} {o : Nat} {s : State} :
      Asks cx env ⟨.orElse p q, o, s⟩ 0 ⟨p, o, s⟩
  | right {p q : Pattern ν} {o : Nat} {s t : State} {miss : Miss}
      (missed : p.run cx env o s = .error (.miss miss) t) :
      Asks cx env ⟨.orElse p q, o, s⟩ 0 ⟨q, o, t.restore s.draft.mark⟩
  | optional {p : Pattern ν} {o : Nat} {s : State} :
      Asks cx env ⟨.optional p, o, s⟩ 0 ⟨p, o, s⟩
  | many {p : Pattern ν} {o m : Nat} {s t : State}
      (laps : Matcher.Laps cx.source.size (Matcher.manyRound (p.run cx env)) o s m t) :
      Asks cx env ⟨.many p, o, s⟩ 0 ⟨p, m, t⟩
  | item {item : Pattern ν} {separator : TokenKind} {o : Nat} {s : State} :
      Asks cx env ⟨.separated item separator, o, s⟩ 0 ⟨item, o, s⟩
  | separator {item : Pattern ν} {separator : TokenKind} {o m n : Nat} {s t u : State}
      (ran : item.run cx env o s = .ok m t)
      (laps : Matcher.Laps cx.source.size
        (Matcher.separatedRound cx (item.run cx env) separator) m t n u) :
      Asks cx env ⟨.separated item separator, o, s⟩ 0 ⟨.expect separator, n, u⟩
  | further {item : Pattern ν} {separator : TokenKind} {o m n next : Nat} {s t u v : State}
      (ran : item.run cx env o s = .ok m t)
      (laps : Matcher.Laps cx.source.size
        (Matcher.separatedRound cx (item.run cx env) separator) m t n u)
      (separated : (Pattern.expect separator).run cx env n u = .ok next v) :
      Asks cx env ⟨.separated item separator, o, s⟩ 0 ⟨item, next, v⟩
  | ahead {p : Pattern ν} {o : Nat} {s : State} : Asks cx env ⟨.ahead p, o, s⟩ 0 ⟨p, o, s⟩
  | child {p : Pattern ν} {attach : Node → Edit} {o : Nat} {s : State} {progress : Progress}
      (entered : cx.enter o s.progress = .ok () progress) :
      Asks cx env ⟨.child p attach, o, s⟩ 1 ⟨p, o, ⟨.blank, progress⟩⟩
  | andEdit {p : Pattern ν} {edit : Draft → Edit} {o : Nat} {s : State} :
      Asks cx env ⟨.andEdit p edit, o, s⟩ 0 ⟨p, o, s⟩

end Call

theorem Context.enter_eq_ok {o : Nat} {p q : Progress} :
    cx.enter o p = .ok () q ↔ p.depth < cx.limits.maxDepth ∧ q = p.deeper := by
  rw [enter]
  split
  · next hroom => simp [hroom, Progress.deeper, eq_comm]
  · next hfull => simp [hfull]

/-! ## What is handed on -/

/-- A pattern that keeps to the contract, or the one that is never there. -/
def Pattern.Fair (p : Pattern ν) : Prop :=
  p.Honest (fun _ => True) ∨ p = .never

theorem Pattern.Fair.honest {p : Pattern ν} (h : p.Fair) (hne : p ≠ .never) :
    p.Honest fun _ => True :=
  h.resolve_right hne

/-- What is the same of a call and of one that it asks, or goes from the one to the other. -/
structure Call.HandsOn (cx : Context) (c : Call ν) (nodes : Nat) (c' : Call ν) : Prop where
  fair : c'.pattern.Fair
  le : c.start ≤ c'.start
  bound : c'.start ≤ max c.start cx.source.size
  depth : c'.depth = c.depth + nodes
  room : c'.depth ≤ max c.depth cx.limits.maxDepth

namespace Call

variable {c c' : Call ν} {nodes : Nat} {p : Pattern ν} {start m : Nat} {s t : State}

/-- In the same place nothing has changed. -/
theorem HandsOn.here {q : Pattern ν} (hq : q.Honest fun _ => True) :
    HandsOn cx ⟨p, start, s⟩ 0 ⟨q, start, s⟩ :=
  ⟨.inl hq, Nat.le_refl _, Nat.le_max_left .., rfl, Nat.le_max_left ..⟩

theorem HandsOn.behind {q : Pattern ν} (hq : q.Honest fun _ => True) (le : start ≤ m)
    (bound : m ≤ max start cx.source.size) (later : s.progress.Later t.progress) :
    HandsOn cx ⟨p, start, s⟩ 0 ⟨q, m, t⟩ :=
  ⟨.inl hq, le, bound, later.depth, Nat.le_trans (Nat.le_of_eq later.depth) (Nat.le_max_left ..)⟩

theorem Asks.handsOn (henv : ∀ n, Matcher.Lawful cx (fun _ => True) (env n))
    (h : c.Asks cx env nodes c') (hc : c.pattern.Fair) : c.HandsOn cx nodes c' := by
  have hlawful (p : Pattern ν) (hp : p.Honest fun _ => True) :
      Matcher.Lawful cx (fun _ => True) (p.run cx env) :=
    Pattern.run_lawful (refusals_any cx) henv hp
  have hc : c.pattern.Honest fun _ => True := hc.honest (by cases h <;> simp)
  cases h with
  | first => exact .here hc.1
  | left => exact .here hc.1
  | optional | item | ahead => exact .here hc
  | andEdit => exact .here hc.1
  | second ran =>
      obtain ⟨le, bound, later⟩ := (hlawful _ hc.1).of_ok ran
      exact .behind hc.2 le bound later
  | right missed =>
      have later := (hlawful _ hc.1).of_error missed
      exact ⟨hc.2, Nat.le_refl _, Nat.le_max_left .., later.depth,
        Nat.le_trans (Nat.le_of_eq later.depth) (Nat.le_max_left ..)⟩
  | many laps =>
      obtain ⟨le, bound, later⟩ := laps.later (Matcher.manyRound_kept (hlawful _ hc))
      exact .behind hc le bound later
  | @separator item _ _ _ _ _ _ _ ran laps =>
      obtain ⟨le, bound, later⟩ := (hlawful item hc).of_ok ran
      obtain ⟨le', bound', later'⟩ :=
        laps.later (Matcher.separatedRound_kept (refusals_any cx) (hlawful item hc) _)
      exact .behind (Pattern.expect_honest _) (by omega) (by omega) (later.trans later')
  | @further item _ _ _ _ _ _ _ _ _ ran laps separated =>
      obtain ⟨le, bound, later⟩ := (hlawful item hc).of_ok ran
      obtain ⟨le', bound', later'⟩ :=
        laps.later (Matcher.separatedRound_kept (refusals_any cx) (hlawful item hc) _)
      obtain ⟨le'', bound'', later''⟩ := (hlawful _ (Pattern.expect_honest _)).of_ok separated
      exact .behind hc (by omega) (by omega) ((later.trans later').trans later'')
  | child entered =>
      obtain ⟨hroom, rfl⟩ := Context.enter_eq_ok.1 entered
      exact ⟨.inl hc.1, Nat.le_refl _, Nat.le_max_left .., rfl,
        Nat.le_trans (Nat.succ_le_of_lt hroom) (Nat.le_max_right ..)⟩

end Call

/-- Whatever a call comes to, it is then as deep as it was. -/
theorem Pattern.Fair.depth_run (henv : ∀ n, Matcher.Lawful cx (fun _ => True) (env n))
    {p : Pattern ν} (h : p.Fair) (o : Nat) (s : State) :
    (p.run cx env o s).progress.depth = s.progress.depth := by
  rcases h with h | rfl
  · exact (Pattern.run_lawful (refusals_any cx) henv h o s).progress_later.depth
  · rfl

/-! ## Runs that agree -/

/-- The same source with another limit on nesting. -/
def Context.withDepth (cx : Context) (depth : Nat) : Context :=
  { cx with limits := { cx.limits with maxDepth := depth } }

/-- Under another limit on nesting and with other meanings of names a pattern comes to the
same, if both make no difference to the calls of its run: `I` holds of them. -/
theorem Pattern.run_agree {depth : Nat} {env' : ν → Matcher} {I : Call ν → Prop}
    (hasks : ∀ {c nodes c'}, c.Asks cx env nodes c' → I c → I c')
    (hchild : ∀ {p attach o s}, I ⟨.child p attach, o, s⟩ →
      (cx.withDepth depth).enter o s.progress = cx.enter o s.progress)
    (href : ∀ {name o s}, I ⟨.ref name, o, s⟩ → env' name o s = env name o s)
    {p : Pattern ν} {o : Nat} {s : State} (h : I ⟨p, o, s⟩) :
    p.run (cx.withDepth depth) env' o s = p.run cx env o s := by
  induction p generalizing o s with
  | token | endOfInput | done | never => rfl
  | andThen p q ihp ihq =>
      simp only [run, Matcher.andThen, ihp (hasks .first h)]
      cases hrun : p.run cx env o s with
      | error f t => rfl
      | ok m t => simp only [ihq (hasks (.second hrun) h)]
  | orElse p q ihp ihq =>
      simp only [run, Matcher.orElse, ihp (hasks .left h)]
      cases hrun : p.run cx env o s with
      | ok m t => rfl
      | error f t =>
          cases f with
          | fatal e => rfl
          | miss miss => simp only [ihq (hasks (.right hrun) h)]
  | optional p ih => simp only [run, Matcher.optional, ih (hasks .optional h)]
  | many p ih =>
      refine Matcher.rounds_congr fun m t hlaps => ?_
      simp only [Matcher.manyRound, ih (hasks (.many hlaps) h)]
  | separated item separator ih =>
      simp only [run, Matcher.separated, ih (hasks .item h)]
      cases hrun : item.run cx env o s with
      | error f t => cases f <;> rfl
      | ok m t =>
          refine Matcher.rounds_congr fun n u hlaps => ?_
          have hsame : Matcher.expect (cx.withDepth depth) separator n u =
              (Pattern.expect separator).run cx env n u := rfl
          have hsep : Matcher.expect cx separator n u =
              (Pattern.expect separator).run cx env n u := rfl
          simp only [Matcher.separatedRound, hsame, hsep]
          cases hnext : (Pattern.expect separator).run cx env n u with
          | error f v => cases f <;> rfl
          | ok next v => simp only [ih (hasks (.further hrun hlaps hnext) h)]
  | ahead p ih => simp only [run, Matcher.ahead, ih (hasks .ahead h)]
  | child p attach ih =>
      simp only [run, Matcher.child, Matcher.build, hchild h]
      cases hentered : cx.enter o s.progress with
      | error f progress => rfl
      | ok _ progress =>
          simp only [ih (hasks (.child hentered) h)]
          rfl
  | andEdit p edit ih => simp only [run, Matcher.andEdit, ih (hasks .andEdit h)]
  | ref name => exact href h

end WeLang
