import WeLang.Proofs.Leaving

/-!
# A miss leaves nothing behind

A value that misses leaves the draft as it was (`Grammar.value_untouched`): each of its
alternatives is undone when it misses, and behind the last one nothing is left to be
tried. A production on its own may leave something behind when it misses, but only on
top of what was there, so that going back to a mark that was set before gives the draft
back (`miss_undone`).

To go back to a mark is to cut each stack down to the height it had. Where a stack is
not even that high any more there is nothing to be cut off; a draft that keeps its
entries twice, in a table and in the order in which they came, cannot do it at all.
`Guarded` matchers do what matchers do, but they break off where that is asked of them.
On tidy patterns they never do (`Pattern.runGuarded_eq`), and so no parse ever does.
-/

namespace WeLang

variable {cx : Context}

/-! ## Nothing is left of a choice that misses -/

/-- A matcher that leaves the draft as it was when it misses. -/
def Matcher.Untouched (p : Matcher) : Prop :=
  ∀ ⦃start s m t⦄, p start s = .error (.miss m) t → t.draft = s.draft

namespace Matcher

variable {p q : Matcher}

theorem never_untouched : Untouched never := by
  intro start s m t h
  cases h
  rfl

/-- The first is undone, and the second leaves nothing. -/
theorem orElse_untouched (hp : Undone p) (hq : Untouched q) : Untouched (orElse p q) := by
  intro start s m t h
  rw [orElse] at h
  split at h
  · cases h
  · cases h
  · next hrun =>
      split at h
      · cases h
      · cases h
      · next hrun' =>
          cases h
          exact (hq hrun').trans (State.draft_restore (hp hrun))

end Matcher

theorem Pattern.firstOf_untouched {ν : Type} {env : ν → Matcher} {ps : List (Pattern ν)}
    (h : ∀ p ∈ ps, Matcher.Undone (p.run cx env)) :
    Matcher.Untouched ((firstOf ps).run cx env) := by
  induction ps with
  | nil => exact Matcher.never_untouched
  | cons p ps ih =>
      exact Matcher.orElse_untouched (h p (List.mem_cons_self ..))
        (ih fun q hq => h q (List.mem_cons_of_mem _ hq))

namespace Grammar

/-- The productions that are undone from outside when they miss. -/
def productions : List (Pattern Nonterminal) :=
  [«module» (.ref .value), useStatement, list (.ref .value), map (.ref .value),
    function (.ref .value), typeParameter (.ref .value), typeAlias (.ref .value),
    typeIdentity (.ref .value), identifierChain]

end Grammar

/-! ## Matchers that break off -/

/-- A matcher that may come to nothing, when a draft with too few entries is to go back
to a mark. -/
abbrev Guarded := Nat → State → Option Step

/-- The state gone back to a mark, unless the mark knows of more entries than there are. -/
def State.restore? (s : State) (m : Draft.Mark) : Option State :=
  if m.entries ≤ s.draft.entries.size then some (s.restore m) else none

theorem State.restore?_of_extends {s t : State} (h : s.draft.Extends t.draft) :
    t.restore? s.draft.mark = some (t.restore s.draft.mark) := by
  obtain ⟨more, hmore⟩ := h.entries
  have hle : s.draft.mark.entries ≤ t.draft.entries.size := by
    rw [hmore, Array.size_append]
    exact Nat.le_add_right ..
  rw [restore?, if_pos hle]

namespace Guarded

/-- Like `Matcher.andThen`. -/
def andThen (p q : Guarded) : Guarded := fun start s =>
  (p start s).bind fun
    | .error f s => some (.error (f.rebase start) s)
    | .ok next s =>
        (q next s).map fun
          | .error f s => .error (f.rebase start) s
          | .ok stop s => .ok stop s

/-- Like `Matcher.orElse`, but the draft has to be able to go back. -/
def orElse (p q : Guarded) : Guarded := fun start s =>
  (p start s).bind fun
    | .ok stop s => some (.ok stop s)
    | .error (.fatal e) s => some (.error (.fatal e) s)
    | .error (.miss m) after =>
        (after.restore? s.draft.mark).bind fun back =>
          (q start back).map fun
            | .ok stop s => .ok stop s
            | .error (.fatal e) s => .error (.fatal e) s
            | .error (.miss n) s => .error (.miss (((Miss.nothing start).merge m).merge n)) s

/-- Like `Matcher.optional`, but the draft has to be able to go back. -/
def optional (p : Guarded) : Guarded := fun start s =>
  (p start s).bind fun
    | .ok stop s => some (.ok stop s)
    | .error (.fatal e) s => some (.error (.fatal e) s)
    | .error (.miss _) after => (after.restore? s.draft.mark).map (.ok start)

/-- Like `Matcher.ahead`. -/
def ahead (p : Guarded) : Guarded := fun start s =>
  (p start s).map fun
    | .ok _ s => .ok start s
    | .error f s => .error f s

/-- Like `Matcher.rounds`. -/
def rounds (size : Nat) (round : Nat → State → Option Matcher.Round) (pos : Nat) (s : State) :
    Option Step :=
  match round pos s with
  | none => none
  | some (.stop stop s) => some (.ok stop s)
  | some (.fail e s) => some (.error (.fatal e) s)
  | some (.again next s) =>
      if pos < next ∧ pos < size then rounds size round next s else some (.ok next s)
termination_by size - pos
decreasing_by omega

/-- Like `Matcher.manyRound`, but the draft has to be able to go back. -/
def manyRound (p : Guarded) (pos : Nat) (s : State) : Option Matcher.Round :=
  (p pos s).bind fun
    | .ok next after =>
        if pos < next then some (.again next after)
        else (after.restore? s.draft.mark).map (.stop pos)
    | .error (.miss _) after => (after.restore? s.draft.mark).map (.stop pos)
    | .error (.fatal e) after => some (.fail e after)

/-- Like `Matcher.many`. -/
def many (cx : Context) (p : Guarded) : Guarded :=
  rounds cx.source.size (manyRound p)

/-- Like `Matcher.separatedRound`, but the draft has to be able to go back. -/
def separatedRound (cx : Context) (item : Guarded) (separator : TokenKind) (pos : Nat)
    (s : State) : Option Matcher.Round :=
  match Matcher.expect cx separator pos s with
  | .error (.miss _) s => some (.stop pos s)
  | .error (.fatal e) s => some (.fail e s)
  | .ok next s =>
      (item next s).bind fun
        | .ok stop s => some (.again stop s)
        | .error (.miss _) after => (after.restore? s.draft.mark).map (.stop next)
        | .error (.fatal e) s => some (.fail e s)

/-- Like `Matcher.separated`, but the draft has to be able to go back. -/
def separated (cx : Context) (item : Guarded) (separator : TokenKind) : Guarded := fun start s =>
  (item start s).bind fun
    | .ok next s => rounds cx.source.size (separatedRound cx item separator) next s
    | .error (.miss _) after => (after.restore? s.draft.mark).map (.ok start)
    | .error (.fatal e) s => some (.error (.fatal e) s)

/-- Like `Matcher.build`. -/
def build (cx : Context) (p : Guarded) (start : Nat) (progress : Progress) :
    Option (EStateM.Result Failure Progress (Node × Nat)) :=
  match cx.enter start progress with
  | .error f progress => some (.error f progress)
  | .ok _ progress =>
      (p start ⟨.blank, progress⟩).map fun
        | .error f s => .error f s.progress.leave
        | .ok stop s =>
            let span : Span := ⟨min (cx.source.skipBlanks start) stop, stop⟩
            .ok (s.draft.finish span, stop) s.progress.leave

/-- Like `Matcher.child`. -/
def child (cx : Context) (p : Guarded) (attach : Node → Edit) : Guarded := fun start s =>
  (build cx p start s.progress).map fun
    | .error f progress => .error f { s with progress }
    | .ok (node, stop) progress => { s with progress }.settle (attach node) stop

/-- Like `Matcher.andEdit`. -/
def andEdit (p : Guarded) (edit : Draft → Edit) : Guarded := fun start s =>
  (p start s).map fun
    | .ok stop after => after.settle (edit s.draft) stop
    | .error f after => .error f after

/-- A guarded matcher that does what a matcher does and never breaks off. -/
def Agrees (g : Guarded) (p : Matcher) : Prop :=
  ∀ start s, g start s = some (p start s)

variable {g h : Guarded} {p q : Matcher}

theorem andThen_agrees (hp : Agrees g p) (hq : Agrees h q) :
    Agrees (andThen g h) (Matcher.andThen p q) := by
  intro start s
  rw [andThen, Matcher.andThen, hp]
  cases p start s with
  | error f t => rfl
  | ok next t =>
      cases hrun : q next t <;>
        simp only [Option.bind_some, hq next t, hrun, Option.map_some]

theorem orElse_agrees (hp : Agrees g p) (hundone : Matcher.Undone p) (hq : Agrees h q) :
    Agrees (orElse g h) (Matcher.orElse p q) := by
  intro start s
  rw [orElse, Matcher.orElse, hp]
  cases hrun : p start s with
  | ok stop t => rfl
  | error f t =>
      cases f with
      | fatal e => rfl
      | miss m =>
          cases hrun' : q start (t.restore s.draft.mark) with
          | ok stop u =>
              simp only [Option.bind_some, State.restore?_of_extends (hundone hrun), hq start _,
                hrun', Option.map_some]
          | error f u =>
              cases f <;>
                simp only [Option.bind_some, State.restore?_of_extends (hundone hrun), hq start _,
                  hrun', Option.map_some]

theorem optional_agrees (hp : Agrees g p) (hundone : Matcher.Undone p) :
    Agrees (optional g) (Matcher.optional p) := by
  intro start s
  rw [optional, Matcher.optional, hp]
  cases hrun : p start s with
  | ok stop t => rfl
  | error f t =>
      cases f with
      | fatal e => rfl
      | miss m =>
          simp only [Option.bind_some, State.restore?_of_extends (hundone hrun), Option.map_some]

theorem ahead_agrees (hp : Agrees g p) : Agrees (ahead g) (Matcher.ahead p) := by
  intro start s
  rw [ahead, Matcher.ahead, hp]
  cases p start s <;> rfl

/-! ### Repetitions -/

theorem rounds_agrees {round? : Nat → State → Option Matcher.Round}
    {round : Nat → State → Matcher.Round} (hround : ∀ pos s, round? pos s = some (round pos s))
    (size : Nat) : Agrees (rounds size round?) (Matcher.rounds size round) := by
  intro start s
  refine Matcher.rounds_induction
    (motive := fun pos s out => rounds size round? pos s = some out) ?_ ?_ ?_ ?_ start s
  · intro pos s stop s' hr
    rw [rounds, hround, hr]
  · intro pos s e s' hr
    rw [rounds, hround, hr]
  · intro pos s next s' hr hlast
    rw [rounds, hround, hr]
    exact if_neg hlast
  · intro pos s next s' hr hlt hsize ih
    rw [rounds, hround, hr]
    exact (if_pos ⟨hlt, hsize⟩).trans ih

/-- A round that is there and gets nowhere has only added to the draft, and one that
misses has too. -/
theorem manyRound_agrees (hp : Agrees g p) (hundone : Matcher.Undone p)
    (hgrow : ∀ ⦃start s stop t⦄, p start s = .ok stop t → s.draft.Extends t.draft) (pos : Nat)
    (s : State) : manyRound g pos s = some (Matcher.manyRound p pos s) := by
  rw [manyRound, Matcher.manyRound, hp]
  cases hrun : p pos s with
  | ok next t =>
      simp only [Option.bind_some, State.restore?_of_extends (hgrow hrun), Option.map_some]
      split <;> rfl
  | error f t =>
      cases f with
      | fatal e => rfl
      | miss m =>
          simp only [Option.bind_some, State.restore?_of_extends (hundone hrun), Option.map_some]

theorem many_agrees (cx : Context) (hp : Agrees g p) (hundone : Matcher.Undone p)
    (hgrow : ∀ ⦃start s stop t⦄, p start s = .ok stop t → s.draft.Extends t.draft) :
    Agrees (many cx g) (Matcher.many cx p) :=
  rounds_agrees (manyRound_agrees hp hundone hgrow) cx.source.size

theorem separatedRound_agrees (cx : Context) (hp : Agrees g p) (hundone : Matcher.Undone p)
    (separator : TokenKind) (pos : Nat) (s : State) :
    separatedRound cx g separator pos s =
      some (Matcher.separatedRound cx p separator pos s) := by
  rw [separatedRound, Matcher.separatedRound]
  cases Matcher.expect cx separator pos s with
  | error f t => cases f <;> rfl
  | ok next t =>
      simp only [hp next t, Option.bind_some]
      cases hrun : p next t with
      | ok stop u => rfl
      | error f u =>
          cases f with
          | fatal e => rfl
          | miss m =>
              simp only [State.restore?_of_extends (hundone hrun), Option.map_some]

theorem separated_agrees (cx : Context) (hp : Agrees g p) (hundone : Matcher.Undone p)
    (separator : TokenKind) :
    Agrees (separated cx g separator) (Matcher.separated cx p separator) := by
  intro start s
  rw [separated, Matcher.separated, hp]
  cases hrun : p start s with
  | ok next t =>
      exact rounds_agrees (separatedRound_agrees cx hp hundone separator) cx.source.size next t
  | error f t =>
      cases f with
      | fatal e => rfl
      | miss m =>
          simp only [Option.bind_some, State.restore?_of_extends (hundone hrun), Option.map_some]

/-! ### Nodes -/

theorem build_agrees (cx : Context) (hp : Agrees g p) (start : Nat) (progress : Progress) :
    build cx g start progress = some (Matcher.build cx p start progress) := by
  rw [build, Matcher.build]
  cases cx.enter start progress with
  | error f q => rfl
  | ok _ q =>
      cases hrun : p start ⟨.blank, q⟩ <;> simp only [hp start _, hrun, Option.map_some]

theorem child_agrees (cx : Context) (hp : Agrees g p) (attach : Node → Edit) :
    Agrees (child cx g attach) (Matcher.child cx p attach) := by
  intro start s
  rw [child, Matcher.child, build_agrees cx hp]
  cases Matcher.build cx p start s.progress <;> rfl

theorem andEdit_agrees (hp : Agrees g p) (edit : Draft → Edit) :
    Agrees (andEdit g edit) (Matcher.andEdit p edit) := by
  intro start s
  rw [andEdit, Matcher.andEdit, hp]
  cases p start s <;> rfl

end Guarded

/-! ## Patterns -/

/-- The guarded matcher that a pattern stands for. -/
def Pattern.runGuarded {ν : Type} (cx : Context) (env : ν → Guarded) : Pattern ν → Guarded
  | .token kind note => fun start s => some (Matcher.token cx kind note start s)
  | .endOfInput => fun start s => some (Matcher.endOfInput cx start s)
  | .done => fun start s => some (Matcher.done start s)
  | .never => fun start s => some (Matcher.never start s)
  | .andThen p q => .andThen (p.runGuarded cx env) (q.runGuarded cx env)
  | .orElse p q => .orElse (p.runGuarded cx env) (q.runGuarded cx env)
  | .optional p => .optional (p.runGuarded cx env)
  | .many p => .many cx (p.runGuarded cx env)
  | .separated item separator => .separated cx (item.runGuarded cx env) separator
  | .ahead p => .ahead (p.runGuarded cx env)
  | .child p attach => .child cx (p.runGuarded cx env) attach
  | .andEdit p edit => .andEdit (p.runGuarded cx env) edit
  | .ref name => env name

open Guarded in
/-- What a tidy pattern tries can always be undone. -/
theorem Pattern.runGuarded_agrees {ν : Type} {R : ν → Trace} {env? : ν → Guarded}
    {env : ν → Matcher} (henv : ∀ n, (env? n).Agrees (env n))
    (htraced : ∀ n, Matcher.Traced (R n) (env n)) {p : Pattern ν} (h : p.Tidy cx.source R) :
    (p.runGuarded cx env?).Agrees (p.run cx env) := by
  induction p with
  | token kind note => exact fun _ _ => rfl
  | endOfInput | done | never => exact fun _ _ => rfl
  | andThen p q ihp ihq => exact andThen_agrees (ihp h.1) (ihq h.2)
  | orElse p q ihp ihq =>
      exact orElse_agrees (ihp h.2.1) ((run_traced htraced h.2.1).2 h.1) (ihq h.2.2)
  | optional p ih => exact optional_agrees (ih h.2) ((run_traced htraced h.2).2 h.1)
  | many p ih =>
      obtain ⟨hp, hundone⟩ := run_traced htraced h.2.2
      exact many_agrees cx (ih h.2.2) (hundone h.2.1) fun _ _ _ _ hrun => h.1 (hp hrun)
  | separated item separator ih =>
      exact separated_agrees cx (ih h.2) ((run_traced htraced h.2).2 h.1) separator
  | ahead p ih => exact ahead_agrees (ih h)
  | child p attach ih => exact child_agrees cx (ih h) attach
  | andEdit p edit ih => exact andEdit_agrees (ih h) edit
  | ref name => exact henv name

/-- Like `Grammar.valueWithin`. -/
def Grammar.guardedWithin (cx : Context) : Nat → Guarded
  | 0 => fun start s => some (.error (.fatal (cx.tooDeep start)) s)
  | levels + 1 =>
      (value (.ref Nonterminal.value)).runGuarded cx fun .value => guardedWithin cx levels

theorem Grammar.guardedWithin_agrees (cx : Context) (levels : Nat) :
    (guardedWithin cx levels).Agrees (valueWithin cx levels) := by
  induction levels with
  | zero => exact fun _ _ => rfl
  | succ levels ih =>
      exact Pattern.runGuarded_agrees (fun _ => ih) (fun _ => valueWithin_traced cx levels)
        (value_tidy ref_tidy)

/-- Like `Goal.matcher`. -/
def Goal.guarded (goal : Goal) (cx : Context) : Guarded :=
  let production := match goal with
    | .module => Grammar.module (.ref Nonterminal.value)
    | .value => Grammar.soleValue (.ref Nonterminal.value)
  production.runGuarded cx fun _ => Grammar.guardedWithin cx (cx.limits.maxDepth + 1)

theorem Goal.guarded_agrees (goal : Goal) (cx : Context) :
    (goal.guarded cx).Agrees (goal.matcher cx) := by
  have henv (n : Nonterminal) := Grammar.guardedWithin_agrees cx (cx.limits.maxDepth + 1)
  have htraced (n : Nonterminal) := Grammar.valueWithin_traced cx (cx.limits.maxDepth + 1)
  cases goal with
  | module => exact Pattern.runGuarded_agrees henv htraced (Grammar.module_tidy Grammar.ref_tidy)
  | value => exact Pattern.runGuarded_agrees henv htraced (Grammar.soleValue_tidy Grammar.ref_tidy)

/-- Like `Parse.outcome`. -/
def Parse.guarded (goal : Goal) (cx : Context) :
    Option (EStateM.Result Failure Progress (Node × Nat)) :=
  Guarded.build cx (goal.guarded cx) 0 .none

/-- No parse ever asks a draft to go back to a mark that knows of more entries than the
draft has. -/
theorem Parse.guarded_eq (goal : Goal) (cx : Context) :
    guarded goal cx = some (outcome goal cx) :=
  Guarded.build_agrees cx (goal.guarded_agrees cx) 0 .none

/-! ## The grammar -/

theorem Pattern.forall_of_firstOf_tidy {ν : Type} {src : Source} {R : ν → Trace}
    {ps : List (Pattern ν)} (h : (firstOf ps).Tidy src R) :
    ∀ p ∈ ps, p.Undoable src R ∧ p.Tidy src R := by
  induction ps with
  | nil => simp
  | cons p ps ih =>
      obtain ⟨hundoable, htidy, hrest⟩ := h
      simpa using ⟨⟨hundoable, htidy⟩, ih hrest⟩

namespace Grammar

/-- A production that can be undone, run with what the grammar means by its names. -/
theorem undone_of_undoable {p : Pattern Nonterminal}
    (h : p.Undoable cx.source (fun _ => Leaves cx.source (cx.limits.maxDepth + 1)) ∧
      p.Tidy cx.source (fun _ => Leaves cx.source (cx.limits.maxDepth + 1))) :
    Matcher.Undone (p.run cx (meaning cx)) :=
  (Pattern.run_traced (fun _ => valueWithin_traced cx _) h.2).2 h.1

theorem value_untouched (cx : Context) : Matcher.Untouched (matcher cx value) :=
  Pattern.firstOf_untouched fun p hp =>
    undone_of_undoable (Pattern.forall_of_firstOf_tidy (value_tidy ref_tidy) p hp)

section

variable {ν : Type} {src : Source} {R : ν → Trace} {inner : Pattern ν}

/-- Behind the entries of a module only the end can be missing. -/
theorem module_undoable (h : inner.Tidy src R) : («module» inner).Undoable src R :=
  ⟨trivial, .inr ⟨(Pattern.many_harmless useStatement_harmless).growing, trivial,
    .inr ⟨(Pattern.many_harmless (entry_harmless h)).growing, trivial, .inl rfl⟩⟩⟩

end

theorem productions_undone (cx : Context) {p : Pattern Nonterminal} (h : p ∈ productions) :
    Matcher.Undone (p.run cx (meaning cx)) := by
  refine undone_of_undoable ?_
  simp only [productions, List.mem_cons, List.not_mem_nil, or_false] at h
  rcases h with rfl | rfl | h
  · exact ⟨module_undoable ref_tidy, module_tidy ref_tidy⟩
  · exact ⟨useStatement_harmless.undoable, useStatement_harmless.tidy⟩
  · -- what is left are alternatives of a value
    refine Pattern.forall_of_firstOf_tidy (value_tidy ref_tidy) p ?_
    rcases h with rfl | rfl | rfl | rfl | rfl | rfl | rfl <;> simp

end Grammar

/-- A value that misses leaves the draft as it was, a production that misses leaves it
such that it can go back to how it was, and where a parse has a draft go back to a mark
there are at least as many entries as when the mark was set. -/
theorem miss_undone (cx : Context) (start : Nat) (s : State) :
    (∀ m t, Grammar.matcher cx Grammar.value start s = .error (.miss m) t → t.draft = s.draft) ∧
    (∀ p ∈ Grammar.productions, ∀ m t,
      p.run cx (Grammar.meaning cx) start s = .error (.miss m) t →
        t.draft.restore s.draft.mark = s.draft) ∧
    ∀ goal, Parse.guarded goal cx = some (Parse.outcome goal cx) :=
  ⟨fun _ _ hrun => Grammar.value_untouched cx hrun,
    fun _ hp _ _ hrun => (Grammar.productions_undone cx hp hrun).restore_mark,
    fun goal => Parse.guarded_eq goal cx⟩

/-- A list without an end: as a list it leaves its item in the draft, as a value nothing. -/
theorem miss_undone_list :
    ∃ m t m' t', (Grammar.list (.ref .value)).run ⟨⟨"[1"⟩, .standard⟩
        (Grammar.meaning ⟨⟨"[1"⟩, .standard⟩) 0 .initial = .error (.miss m) t ∧
      t.draft.children.size = 1 ∧ t.draft.restore Draft.blank.mark = .blank ∧
      Grammar.matcher ⟨⟨"[1"⟩, .standard⟩ Grammar.value 0 .initial = .error (.miss m') t' ∧
      t'.draft = .blank := by
  obtain ⟨m, t, hlist, hitem⟩ : ∃ m t, (Grammar.list (.ref .value)).run ⟨⟨"[1"⟩, .standard⟩
      (Grammar.meaning ⟨⟨"[1"⟩, .standard⟩) 0 .initial = .error (.miss m) t ∧
        t.draft.children.size = 1 :=
    ⟨_, _, by cbv, rfl⟩
  obtain ⟨m', t', hvalue⟩ : ∃ m t,
      Grammar.matcher ⟨⟨"[1"⟩, .standard⟩ Grammar.value 0 .initial = .error (.miss m) t :=
    ⟨_, _, by cbv⟩
  obtain ⟨hleft, hrestored, -⟩ := miss_undone ⟨⟨"[1"⟩, .standard⟩ 0 .initial
  have hmem : Grammar.list (.ref .value) ∈ Grammar.productions := by simp [Grammar.productions]
  exact ⟨m, t, m', t', hlist, hitem, hrestored _ hmem m t hlist, hvalue, hleft m' t' hvalue⟩

end WeLang
