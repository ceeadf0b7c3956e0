import WeLang.Proofs.Reading

/-!
# What reading leaves in a draft

A pattern that is there leaves its trace in the draft. `Pattern.Traces` says what the
trace is, and it says it as if nothing had ever been tried in vain: one after the other,
one or else the other, any number of times. It knows no misses, no marks, no progress and
no limits, only offsets and drafts, so whoever wants to know what a tree looks like may
forget how a parse came to it (`Pattern.run_traced`).

What has to be shown for that is that going back to a mark undoes what was tried in vain.
A draft goes back by cutting off what came behind the mark, so all that may have happened
in between is that something was added (`Draft.Extends`). Of a pattern that is there this
can be said by its trace (`Pattern.Growing`); of one that misses it is a matter of how the
pattern is written (`Pattern.Undoable`): the edits that take something out of a draft, to
make a payload of it or to attach it elsewhere, come last in what they belong to, and
behind them nothing can miss any more.
-/

namespace WeLang

variable {cx : Context} {src : Source} {o o' : Nat}

/-! ## Drafts that grow -/

/-- A draft to which nothing was done but to add to its stacks, and perhaps to say what
it is. -/
structure Draft.Extends (d d' : Draft) : Prop where
  children : ∃ more, d'.children = d.children ++ more
  names : ∃ more, d'.names = d.names ++ more
  keys : ∃ more, d'.keys = d.keys ++ more
  usings : ∃ more, d'.usings = d.usings ++ more
  entries : ∃ more, d'.entries = d.entries ++ more

namespace Draft.Extends

variable {d d' d'' : Draft}

theorem refl (d : Draft) : d.Extends d :=
  ⟨⟨#[], by simp⟩, ⟨#[], by simp⟩, ⟨#[], by simp⟩, ⟨#[], by simp⟩, ⟨#[], by simp⟩⟩

theorem trans_stack {α : Type} {a b c : Array α} (h : ∃ more, b = a ++ more)
    (h' : ∃ more, c = b ++ more) : ∃ more, c = a ++ more := by
  obtain ⟨more, rfl⟩ := h
  obtain ⟨more', rfl⟩ := h'
  exact ⟨more ++ more', Array.append_assoc ..⟩

theorem trans (h : d.Extends d') (h' : d'.Extends d'') : d.Extends d'' :=
  ⟨trans_stack h.children h'.children, trans_stack h.names h'.names,
    trans_stack h.keys h'.keys, trans_stack h.usings h'.usings,
    trans_stack h.entries h'.entries⟩

theorem take_stack {α : Type} {a b : Array α} (h : ∃ more, b = a ++ more) :
    b.take a.size = a := by
  obtain ⟨more, rfl⟩ := h
  simp

/-- Whatever was added is cut off again. -/
theorem restore_mark (h : d.Extends d') : d'.restore d.mark = d := by
  simp only [Draft.restore, Draft.mark, take_stack h.children, take_stack h.names,
    take_stack h.keys, take_stack h.usings, take_stack h.entries]

end Draft.Extends

/-- A change of a draft that only adds to it. -/
def Edit.Adds (edit : Edit) : Prop :=
  ∀ d d', edit d = .ok () d' → d.Extends d'

theorem Edit.Adds.modify {f : Draft → Draft} (h : ∀ d : Draft, d.Extends (f d)) :
    Edit.Adds (modify f) := by
  intro d d' hok
  cases hok
  exact h d

theorem Edit.Adds.pure : Edit.Adds (pure ()) :=
  .modify .refl

/-! ## Traces -/

/-- What may become of a draft at an offset, and at which offset. -/
abbrev Trace := Nat → Draft → Nat → Draft → Prop

/-- One trace after the other, as often as one likes. -/
inductive Trace.Star (Q : Trace) : Trace
  | refl (o : Nat) (d : Draft) : Star Q o d o d
  | step {o m o' : Nat} {d e d' : Draft} (head : Q o d m e) (tail : Star Q m e o' d') :
      Star Q o d o' d'

/-- A token of a kind is read up to an offset. -/
def Source.Token (src : Source) (kind : TokenKind) (o o' : Nat) : Prop :=
  ∃ x, src.lexeme? o = some x ∧ x.kind = kind ∧ x.span.stop = o'

/-- The trace of a separator and an item. -/
def Trace.separated (src : Source) (separator : TokenKind) (Q : Trace) : Trace :=
  fun o d o' d' => ∃ m, src.Token separator o m ∧ Q m d o' d'

/-- The span of a node that is read between two offsets. -/
def Source.spanOf (src : Source) (o o' : Nat) : Span :=
  ⟨min (src.skipBlanks o) o', o'⟩

namespace Pattern

variable {ν : Type}

/-- What a pattern leaves in a draft where it is there. -/
def Traces (src : Source) (R : ν → Trace) : Pattern ν → Trace
  | .token kind note, o, d, o', d' => ∃ x, src.lexeme? o = some x ∧ x.kind = kind ∧
      x.span.stop = o' ∧ note x d = .ok () d'
  | .endOfInput, o, d, o', d' => src.isSpent o = true ∧ o' = src.skipBlanks o ∧ d' = d
  | .done, o, d, o', d' => o' = o ∧ d' = d
  | .never, _, _, _, _ => False
  | .andThen p q, o, d, o', d' => ∃ m e, p.Traces src R o d m e ∧ q.Traces src R m e o' d'
  | .orElse p q, o, d, o', d' => p.Traces src R o d o' d' ∨ q.Traces src R o d o' d'
  | .optional p, o, d, o', d' => p.Traces src R o d o' d' ∨ o' = o ∧ d' = d
  | .many p, o, d, o', d' => Trace.Star (p.Traces src R) o d o' d'
  | .separated item separator, o, d, o', d' =>
      o' = o ∧ d' = d ∨ ∃ m e m', item.Traces src R o d m e ∧
        Trace.Star (Trace.separated src separator (item.Traces src R)) m e m' d' ∧
          (o' = m' ∨ src.Token separator m' o')
  | .ahead p, o, d, o', d' => ∃ m, p.Traces src R o d m d' ∧ o' = o
  | .child p attach, o, d, o', d' => ∃ e, p.Traces src R o .blank o' e ∧
      attach (e.finish (src.spanOf o o')) d = .ok () d'
  | .andEdit p edit, o, d, o', d' => ∃ e, p.Traces src R o d o' e ∧ edit d e = .ok () d'
  | .ref name, o, d, o', d' => R name o d o' d'

/-! ## Patterns that can be undone -/

/-- A pattern that leaves nothing in a draft but what it adds. -/
def Growing (src : Source) (R : ν → Trace) (p : Pattern ν) : Prop :=
  ∀ ⦃o d o' d'⦄, p.Traces src R o d o' d' → d.Extends d'

/-- A pattern that has only added to a draft when it misses. -/
def Undoable (src : Source) (R : ν → Trace) : Pattern ν → Prop
  | .andThen p q => p.Undoable src R ∧ (q = .done ∨ p.Growing src R ∧ q.Undoable src R)
  | .orElse _ q => q.Undoable src R
  | .ahead p | .andEdit p _ => p.Undoable src R
  | .ref _ => False
  | .token .. | .endOfInput | .done | .never | .optional _ | .many _ | .separated .. |
    .child .. => True

/-- A pattern that tries nothing that cannot be undone. What is tried once more is
undone even if it is there, when it got nowhere. -/
def Tidy (src : Source) (R : ν → Trace) : Pattern ν → Prop
  | .token .. | .endOfInput | .done | .never | .ref _ => True
  | .andThen p q => p.Tidy src R ∧ q.Tidy src R
  | .orElse p q => p.Undoable src R ∧ p.Tidy src R ∧ q.Tidy src R
  | .optional p | .separated p _ => p.Undoable src R ∧ p.Tidy src R
  | .many p => p.Growing src R ∧ p.Undoable src R ∧ p.Tidy src R
  | .ahead p | .child p _ | .andEdit p _ => p.Tidy src R

/-- A pattern that may stand anywhere in what is tried. -/
structure Harmless (src : Source) (R : ν → Trace) (p : Pattern ν) : Prop where
  growing : p.Growing src R
  undoable : p.Undoable src R
  tidy : p.Tidy src R

section Harmless

variable {R : ν → Trace} {p q : Pattern ν} {ps : List (Pattern ν)}

theorem token_harmless {note : Lexeme → Edit} (kind : TokenKind) (h : ∀ x, (note x).Adds) :
    (token kind note).Harmless src R := by
  refine ⟨?_, trivial, trivial⟩
  intro o d o' d' htrace
  obtain ⟨x, -, -, -, hnote⟩ := htrace
  exact h x d d' hnote

theorem expect_harmless (kind : TokenKind) : (expect kind).Harmless src R :=
  token_harmless kind fun _ => .pure

theorem mark_harmless (m : Symbol) : (mark m).Harmless src R :=
  expect_harmless (.symbol m)

theorem andThen_harmless (hp : p.Harmless src R) (hq : q.Harmless src R) :
    (andThen p q).Harmless src R := by
  refine ⟨?_, ⟨hp.undoable, .inr ⟨hp.growing, hq.undoable⟩⟩, hp.tidy, hq.tidy⟩
  intro o d o' d' htrace
  obtain ⟨m, e, hp', hq'⟩ := htrace
  exact (hp.growing hp').trans (hq.growing hq')

theorem done_harmless : (done : Pattern ν).Harmless src R := by
  refine ⟨?_, trivial, trivial⟩
  intro o d o' d' htrace
  obtain ⟨-, rfl⟩ := htrace
  exact .refl d'

theorem sequence_harmless (h : ps.Forall (Harmless src R)) : (sequence ps).Harmless src R := by
  induction ps with
  | nil => exact done_harmless
  | cons p ps ih =>
      rw [List.forall_cons] at h
      exact andThen_harmless h.1 (ih h.2)

/-- The last alternative is the one that is never there, and it can be undone. -/
theorem firstOf_undoable : (firstOf ps).Undoable src R := by
  induction ps with
  | nil => trivial
  | cons p ps ih => exact ih

theorem firstOf_tidy (h : ps.Forall fun p => p.Undoable src R ∧ p.Tidy src R) :
    (firstOf ps).Tidy src R := by
  induction ps with
  | nil => trivial
  | cons p ps ih =>
      rw [List.forall_cons] at h
      exact ⟨h.1.1, h.1.2, ih h.2⟩

theorem traces_firstOf {o o' : Nat} {d d' : Draft} :
    (firstOf ps).Traces src R o d o' d' ↔ ∃ p ∈ ps, p.Traces src R o d o' d' := by
  induction ps with
  | nil => simp [firstOf, Traces]
  | cons p ps ih =>
      rw [List.exists_mem_cons_iff, ← ih]
      rfl

theorem firstOf_harmless (h : ps.Forall (Harmless src R)) : (firstOf ps).Harmless src R := by
  refine ⟨?_, firstOf_undoable, firstOf_tidy (h.imp fun p hp => ⟨hp.undoable, hp.tidy⟩)⟩
  intro o d o' d' htrace
  obtain ⟨p, hp, htrace⟩ := traces_firstOf.1 htrace
  exact (List.forall_iff_forall_mem.1 h p hp).growing htrace

theorem optional_harmless (h : p.Harmless src R) : (optional p).Harmless src R := by
  refine ⟨?_, trivial, h.undoable, h.tidy⟩
  intro o d o' d' htrace
  rcases htrace with htrace | ⟨-, rfl⟩
  · exact h.growing htrace
  · exact .refl d'

theorem star_extends {Q : Trace} (h : ∀ ⦃o d o' d'⦄, Q o d o' d' → d.Extends d') {d d' : Draft}
    (hstar : Trace.Star Q o d o' d') : d.Extends d' := by
  induction hstar with
  | refl o d => exact .refl d
  | step head _ ih => exact (h head).trans ih

theorem many_harmless (h : p.Harmless src R) : (many p).Harmless src R :=
  ⟨fun _ _ _ _ htrace => star_extends h.growing htrace, trivial, h.growing, h.undoable, h.tidy⟩

theorem separated_harmless (h : p.Harmless src R) (separator : TokenKind) :
    (separated p separator).Harmless src R := by
  refine ⟨?_, trivial, h.undoable, h.tidy⟩
  intro o d o' d' htrace
  rcases htrace with ⟨-, rfl⟩ | ⟨m, e, m', hfirst, hrest, -⟩
  · exact .refl d'
  · refine (h.growing hfirst).trans (star_extends ?_ hrest)
    intro o d o' d' hsep
    obtain ⟨m, -, hitem⟩ := hsep
    exact h.growing hitem

theorem child_harmless {attach : Node → Edit} (h : p.Tidy src R) (ha : ∀ n, (attach n).Adds) :
    (child p attach).Harmless src R := by
  refine ⟨?_, trivial, h⟩
  intro o d o' d' htrace
  obtain ⟨e, -, hattach⟩ := htrace
  exact ha _ d d' hattach

end Harmless

end Pattern

/-! ## Matchers -/

namespace Matcher

/-- A matcher that leaves a trace of a certain sort wherever it matches. -/
def Traced (Q : Trace) (p : Matcher) : Prop :=
  ∀ ⦃start s stop t⦄, p start s = .ok stop t → Q start s.draft stop t.draft

/-- A matcher that has only added to the draft when it misses. -/
def Undone (p : Matcher) : Prop :=
  ∀ ⦃start s m t⦄, p start s = .error (.miss m) t → s.draft.Extends t.draft

end Matcher

theorem State.draft_of_settle {s t : State} {edit : Edit} {stop stop' : Nat}
    (h : s.settle edit stop = .ok stop' t) : edit s.draft = .ok () t.draft := by
  rw [settle] at h
  split at h
  · next hedit =>
      cases h
      exact hedit
  · cases h

theorem State.settle_ne_miss {s t : State} {edit : Edit} {stop : Nat} {m : Miss} :
    s.settle edit stop ≠ .error (.miss m) t := by
  intro h
  rw [settle] at h
  split at h <;> cases h

theorem State.draft_restore {s t : State} (h : s.draft.Extends t.draft) :
    (t.restore s.draft.mark).draft = s.draft :=
  h.restore_mark

namespace Matcher

variable {p q : Matcher} {P Q : Trace}

theorem token_traced (cx : Context) (kind : TokenKind) (note : Lexeme → Edit) :
    Traced (fun o d o' d' => ∃ x, cx.source.lexeme? o = some x ∧ x.kind = kind ∧
      x.span.stop = o' ∧ note x d = .ok () d') (token cx kind note) := by
  intro start s stop t h
  have hlex := cx.lexed kind start s.progress
  rw [token] at h
  generalize cx.lex kind start s.progress = out at h hlex
  cases hlex with
  | @found x here hk =>
      have hnote := State.draft_of_settle h
      obtain rfl := State.stop_of_settle h
      exact ⟨x, here, hk, rfl, hnote⟩
  | missing => cases h
  | unclosed => cases h
  | exhausted => cases h

theorem token_undone (cx : Context) (kind : TokenKind) (note : Lexeme → Edit) :
    Undone (token cx kind note) := by
  intro start s m t h
  rw [token] at h
  split at h
  · exact absurd h State.settle_ne_miss
  · cases h
    exact .refl _

theorem endOfInput_traced (cx : Context) :
    Traced (fun o d o' d' => cx.source.isSpent o = true ∧ o' = cx.source.skipBlanks o ∧ d' = d)
      (endOfInput cx) := by
  intro start s stop t h
  rw [endOfInput_eq] at h
  split at h
  · next hspent =>
      cases h
      exact ⟨hspent, rfl, rfl⟩
  · cases h

theorem endOfInput_undone (cx : Context) : Undone (endOfInput cx) := by
  intro start s m t h
  rw [endOfInput_eq] at h
  split at h
  · cases h
  · cases h
    exact .refl _

theorem andThen_traced (hp : Traced P p) (hq : Traced Q q) :
    Traced (fun o d o' d' => ∃ m e, P o d m e ∧ Q m e o' d') (andThen p q) := by
  intro start s stop t h
  rw [andThen] at h
  split at h
  · cases h
  · next hrun =>
      split at h
      · cases h
      · next hrun' =>
          cases h
          exact ⟨_, _, hp hrun, hq hrun'⟩

theorem andThen_undone (hp : Undone p) (hP : Traced P p)
    (hgrow : ∀ ⦃o d o' d'⦄, P o d o' d' → d.Extends d') (hq : Undone q) :
    Undone (andThen p q) := by
  intro start s m t h
  rw [andThen] at h
  split at h
  · next f u hrun =>
      cases f with
      | miss n =>
          cases h
          exact hp hrun
      | fatal e => cases h
  · next next u hrun =>
      split at h
      · next f v hrun' =>
          cases f with
          | miss n =>
              cases h
              exact (hgrow (hP hrun)).trans (hq hrun')
          | fatal e => cases h
      · cases h

/-- Whatever the first contributed, nothing behind it can miss. -/
theorem andThen_done_undone (hp : Undone p) : Undone (andThen p done) := by
  intro start s m t h
  rw [andThen] at h
  split at h
  · next f u hrun =>
      cases f with
      | miss n =>
          cases h
          exact hp hrun
      | fatal e => cases h
  · cases h

theorem orElse_traced (hp : Traced P p) (hundone : Undone p) (hq : Traced Q q) :
    Traced (fun o d o' d' => P o d o' d' ∨ Q o d o' d') (orElse p q) := by
  intro start s stop t h
  rw [orElse] at h
  split at h
  · next hrun =>
      cases h
      exact .inl (hp hrun)
  · cases h
  · next hrun =>
      split at h
      · next hrun' =>
          cases h
          have := hq hrun'
          rw [State.draft_restore (hundone hrun)] at this
          exact .inr this
      · cases h
      · cases h

theorem orElse_undone (hp : Undone p) (hq : Undone q) : Undone (orElse p q) := by
  intro start s m t h
  rw [orElse] at h
  split at h
  · cases h
  · cases h
  · next hrun =>
      split at h
      · cases h
      · cases h
      · next hrun' =>
          cases h
          have := hq hrun'
          rw [State.draft_restore (hp hrun)] at this
          exact this

theorem optional_traced (hp : Traced P p) (hundone : Undone p) :
    Traced (fun o d o' d' => P o d o' d' ∨ o' = o ∧ d' = d) (optional p) := by
  intro start s stop t h
  rw [optional] at h
  split at h
  · next hrun =>
      cases h
      exact .inl (hp hrun)
  · cases h
  · next hrun =>
      cases h
      exact .inr ⟨rfl, State.draft_restore (hundone hrun)⟩

theorem optional_undone (p : Matcher) : Undone (optional p) := by
  intro start s m t h
  rw [optional] at h
  split at h <;> cases h

theorem ahead_traced (hp : Traced P p) :
    Traced (fun o d o' d' => ∃ m, P o d m d' ∧ o' = o) (ahead p) := by
  intro start s stop t h
  rw [ahead] at h
  split at h
  · next hrun =>
      cases h
      exact ⟨_, hp hrun, rfl⟩
  · cases h

theorem ahead_undone (hp : Undone p) : Undone (ahead p) := by
  intro start s m t h
  rw [ahead] at h
  split at h
  · cases h
  · next hrun =>
      cases h
      exact hp hrun

/-! ### Repetitions -/

theorem rounds_traced {round : Nat → State → Round}
    (again : ∀ ⦃pos s next t⦄, round pos s = .again next t → P pos s.draft next t.draft)
    (stop : ∀ ⦃pos s stop t⦄, round pos s = .stop stop t → Q pos s.draft stop t.draft)
    (size : Nat) (hQ : ∀ o d, Q o d o d) :
    Traced (fun o d o' d' => ∃ m e, Trace.Star P o d m e ∧ Q m e o' d') (rounds size round) := by
  intro start s
  refine rounds_induction (motive := fun pos s out => ∀ ⦃stop t⦄, out = .ok stop t →
    ∃ m e, Trace.Star P pos s.draft m e ∧ Q m e stop t.draft) ?_ ?_ ?_ ?_ start s
  · intro pos s last s' hr stop' t hout
    cases hout
    exact ⟨pos, s.draft, .refl .., stop hr⟩
  · intro pos s e s' _ stop' t hout
    cases hout
  · intro pos s next s' hr _ stop' t hout
    cases hout
    exact ⟨next, s'.draft, .step (again hr) (.refl ..), hQ ..⟩
  · intro pos s next s' hr _ _ ih stop' t hout
    obtain ⟨m, e, hstar, hlast⟩ := ih hout
    exact ⟨m, e, .step (again hr) hstar, hlast⟩

theorem manyRound_again (hp : Traced P p) ⦃pos s next t⦄ (h : manyRound p pos s = .again next t) :
    P pos s.draft next t.draft := by
  rw [manyRound] at h
  split at h
  · next hrun =>
      split at h
      · cases h
        exact hp hrun
      · cases h
  · cases h
  · cases h

theorem manyRound_stop (hp : Traced P p) (hundone : Undone p)
    (hgrow : ∀ ⦃o d o' d'⦄, P o d o' d' → d.Extends d') ⦃pos s stop t⦄
    (h : manyRound p pos s = .stop stop t) : stop = pos ∧ t.draft = s.draft := by
  rw [manyRound] at h
  split at h
  · next hrun =>
      split at h
      · cases h
      · cases h
        exact ⟨rfl, State.draft_restore (hgrow (hp hrun))⟩
  · next hrun =>
      cases h
      exact ⟨rfl, State.draft_restore (hundone hrun)⟩
  · cases h

/-- A round that gets nowhere is given up even if the matcher is there, and what it added
is cut off like the rest. -/
theorem many_traced (cx : Context) (hp : Traced P p) (hundone : Undone p)
    (hgrow : ∀ ⦃o d o' d'⦄, P o d o' d' → d.Extends d') :
    Traced (Trace.Star P) (many cx p) := by
  intro start s stop t h
  obtain ⟨m, e, hstar, rfl, hdraft⟩ :=
    rounds_traced (manyRound_again hp) (Q := fun o d o' d' => o' = o ∧ d' = d)
      (manyRound_stop hp hundone hgrow) _ (fun _ _ => ⟨rfl, rfl⟩) h
  rw [← hdraft] at hstar
  exact hstar

theorem many_undone (cx : Context) (p : Matcher) : Undone (many cx p) :=
  fun _ _ _ _ h => absurd h rounds_ne_miss

theorem expect_traced (cx : Context) (kind : TokenKind) :
    Traced (fun o d o' d' => cx.source.Token kind o o' ∧ d' = d) (expect cx kind) := by
  intro start s stop t h
  obtain ⟨x, hx, hk, hstop, hnote⟩ := token_traced cx kind _ h
  refine ⟨⟨x, hx, hk, hstop⟩, ?_⟩
  injection hnote with _ hdraft
  exact hdraft.symm

theorem separatedRound_again (hp : Traced P p) {separator : TokenKind} ⦃pos s next t⦄
    (h : separatedRound cx p separator pos s = .again next t) :
    Trace.separated cx.source separator P pos s.draft next t.draft := by
  rw [separatedRound] at h
  split at h
  · cases h
  · cases h
  · next hsep =>
      obtain ⟨hsep, hdraft⟩ := expect_traced cx separator hsep
      split at h
      · next hitem =>
          cases h
          have := hp hitem
          rw [hdraft] at this
          exact ⟨_, hsep, this⟩
      · cases h
      · cases h

theorem expect_miss {kind : TokenKind} {pos : Nat} {s t : State} {m : Miss}
    (h : expect cx kind pos s = .error (.miss m) t) : t.draft = s.draft := by
  rw [expect, token] at h
  split at h
  · exact absurd h State.settle_ne_miss
  · cases h
    rfl

theorem separatedRound_stop (hundone : Undone p) {separator : TokenKind} ⦃pos s stop t⦄
    (h : separatedRound cx p separator pos s = .stop stop t) :
    t.draft = s.draft ∧ (stop = pos ∨ cx.source.Token separator pos stop) := by
  rw [separatedRound] at h
  split at h
  · next hsep =>
      cases h
      exact ⟨expect_miss hsep, .inl rfl⟩
  · cases h
  · next hsep =>
      obtain ⟨hsep, hdraft⟩ := expect_traced cx separator hsep
      split at h
      · cases h
      · next hitem =>
          cases h
          exact ⟨(State.draft_restore (hundone hitem)).trans hdraft, .inr hsep⟩
      · cases h

theorem separated_traced (hp : Traced P p) (hundone : Undone p) (separator : TokenKind) :
    Traced (fun o d o' d' => o' = o ∧ d' = d ∨ ∃ m e m', P o d m e ∧
      Trace.Star (Trace.separated cx.source separator P) m e m' d' ∧
        (o' = m' ∨ cx.source.Token separator m' o')) (separated cx p separator) := by
  intro start s stop t h
  rw [separated] at h
  split at h
  · next hfirst =>
      obtain ⟨m, e, hstar, hdraft, hlast⟩ := rounds_traced (separatedRound_again hp)
        (Q := fun o d o' d' => d' = d ∧ (o' = o ∨ cx.source.Token separator o o'))
        (separatedRound_stop hundone) _ (fun _ _ => ⟨rfl, .inl rfl⟩) h
      rw [← hdraft] at hstar
      exact .inr ⟨_, _, m, hp hfirst, hstar, hlast⟩
  · next hfirst =>
      cases h
      exact .inl ⟨rfl, State.draft_restore (hundone hfirst)⟩
  · cases h

theorem separated_undone (cx : Context) (p : Matcher) (separator : TokenKind) :
    Undone (separated cx p separator) := by
  intro start s m t h
  rw [separated] at h
  split at h
  · exact absurd h rounds_ne_miss
  · cases h
  · cases h

/-! ### Nodes -/

theorem child_traced (hp : Traced P p) (attach : Node → Edit) :
    Traced (fun o d o' d' => ∃ e, P o .blank o' e ∧
      attach (e.finish (cx.source.spanOf o o')) d = .ok () d') (child cx p attach) := by
  intro start s stop t h
  rcases Nat.lt_or_ge s.progress.depth cx.limits.maxDepth with hroom | hfull
  · rw [child_of_room hroom] at h
    split at h
    · cases h
    · next hrun =>
        have hattach := State.draft_of_settle h
        obtain rfl := State.stop_of_settle h
        exact ⟨_, hp hrun, hattach⟩
  · rw [child_of_full hfull] at h
    cases h

theorem child_undone (cx : Context) (p : Matcher) (attach : Node → Edit) :
    Undone (child cx p attach) := by
  intro start s m t h
  rw [child] at h
  split at h
  · cases h
    exact .refl _
  · exact absurd h State.settle_ne_miss

theorem andEdit_traced (hp : Traced P p) (edit : Draft → Edit) :
    Traced (fun o d o' d' => ∃ e, P o d o' e ∧ edit d e = .ok () d') (andEdit p edit) := by
  intro start s stop t h
  rw [andEdit] at h
  split at h
  · next hrun =>
      have hedit := State.draft_of_settle h
      obtain rfl := State.stop_of_settle h
      exact ⟨_, hp hrun, hedit⟩
  · cases h

theorem andEdit_undone (hp : Undone p) (edit : Draft → Edit) : Undone (andEdit p edit) := by
  intro start s m t h
  rw [andEdit] at h
  split at h
  · exact absurd h State.settle_ne_miss
  · next hrun =>
      cases h
      exact hp hrun

end Matcher

/-! ## Patterns -/

open Matcher in
/-- A tidy pattern leaves its trace, whatever was tried in between; and if it misses,
it can be undone if it is meant to be. -/
theorem Pattern.run_traced {ν : Type} {R : ν → Trace} {env : ν → Matcher}
    (henv : ∀ n, Traced (R n) (env n)) {p : Pattern ν} (h : p.Tidy cx.source R) :
    Traced (p.Traces cx.source R) (p.run cx env) ∧
      (p.Undoable cx.source R → Undone (p.run cx env)) := by
  induction p with
  | token kind note => exact ⟨token_traced cx kind note, fun _ => token_undone cx kind note⟩
  | endOfInput => exact ⟨endOfInput_traced cx, fun _ => endOfInput_undone cx⟩
  | done =>
      refine ⟨?_, fun _ _ _ _ _ h => nomatch h⟩
      intro start s stop t hrun
      cases hrun
      exact ⟨rfl, rfl⟩
  | never =>
      refine ⟨(fun _ _ _ _ h => nomatch h), ?_⟩
      intro _ start s m t hrun
      cases hrun
      exact .refl _
  | andThen p q ihp ihq =>
      obtain ⟨hp, hp'⟩ := ihp h.1
      obtain ⟨hq, hq'⟩ := ihq h.2
      refine ⟨andThen_traced hp hq, fun hu => ?_⟩
      rcases hu.2 with rfl | ⟨hgrow, hu'⟩
      · exact andThen_done_undone (hp' hu.1)
      · exact andThen_undone (hp' hu.1) hp hgrow (hq' hu')
  | orElse p q ihp ihq =>
      obtain ⟨hp, hp'⟩ := ihp h.2.1
      obtain ⟨hq, hq'⟩ := ihq h.2.2
      exact ⟨orElse_traced hp (hp' h.1) hq, fun hu => orElse_undone (hp' h.1) (hq' hu)⟩
  | optional p ih =>
      obtain ⟨hp, hp'⟩ := ih h.2
      exact ⟨optional_traced hp (hp' h.1), fun _ => optional_undone _⟩
  | many p ih =>
      obtain ⟨hp, hp'⟩ := ih h.2.2
      exact ⟨many_traced cx hp (hp' h.2.1) h.1, fun _ => many_undone cx _⟩
  | separated item separator ih =>
      obtain ⟨hp, hp'⟩ := ih h.2
      exact ⟨separated_traced hp (hp' h.1) separator, fun _ => separated_undone cx _ separator⟩
  | ahead p ih =>
      obtain ⟨hp, hp'⟩ := ih h
      exact ⟨ahead_traced hp, fun hu => ahead_undone (hp' hu)⟩
  | child p attach ih => exact ⟨child_traced (ih h).1 attach, fun _ => child_undone cx _ attach⟩
  | andEdit p edit ih =>
      obtain ⟨hp, hp'⟩ := ih h
      exact ⟨andEdit_traced hp edit, fun hu => andEdit_undone (hp' hu) edit⟩
  | ref name => exact ⟨henv name, False.elim⟩

/-! ## Offsets -/

theorem Source.Token.le {kind : TokenKind} (h : src.Token kind o o') : o ≤ o' := by
  obtain ⟨x, hx, -, rfl⟩ := h
  have := Source.lexeme?_bounds hx
  omega

theorem Trace.Star.le {Q : Trace} {d d' : Draft} (h : Star Q o d o' d')
    (hQ : ∀ ⦃o d o' d'⦄, Q o d o' d' → o ≤ o') : o ≤ o' := by
  induction h with
  | refl o d => exact Nat.le_refl o
  | step head _ ih => exact Nat.le_trans (hQ head) ih

/-- Nothing that is read ends before it starts. -/
theorem Pattern.Traces.le {ν : Type} {R : ν → Trace} {p : Pattern ν} {d d' : Draft}
    (hR : ∀ n, ∀ ⦃o d o' d'⦄, R n o d o' d' → o ≤ o') (h : p.Traces src R o d o' d') :
    o ≤ o' := by
  induction p generalizing o d o' d' with
  | token kind note =>
      obtain ⟨x, hx, hk, hstop, -⟩ := h
      exact Source.Token.le ⟨x, hx, hk, hstop⟩
  | endOfInput =>
      obtain ⟨-, rfl, -⟩ := h
      exact src.le_skipBlanks o
  | done => exact Nat.le_of_eq h.1.symm
  | never => exact h.elim
  | andThen p q ihp ihq =>
      obtain ⟨m, e, hp, hq⟩ := h
      exact Nat.le_trans (ihp hp) (ihq hq)
  | orElse p q ihp ihq => exact h.elim ihp ihq
  | optional p ih => exact h.elim ih fun hnone => Nat.le_of_eq hnone.1.symm
  | many p ih => exact Trace.Star.le h fun _ _ _ _ => ih
  | separated item separator ih =>
      rcases h with ⟨rfl, -⟩ | ⟨m, e, m', hfirst, hrest, hlast⟩
      · exact Nat.le_refl _
      · have hstep : m ≤ m' := hrest.le fun _ _ _ _ hsep => by
          obtain ⟨_, hsep, hitem⟩ := hsep
          exact Nat.le_trans hsep.le (ih hitem)
        have hstop : m' ≤ o' := hlast.elim (fun heq => Nat.le_of_eq heq.symm) Source.Token.le
        exact Nat.le_trans (ih hfirst) (Nat.le_trans hstep hstop)
  | ahead p ih =>
      obtain ⟨m, -, rfl⟩ := h
      exact Nat.le_refl _
  | child p attach ih =>
      obtain ⟨e, hp, -⟩ := h
      exact ih hp
  | andEdit p edit ih =>
      obtain ⟨e, hp, -⟩ := h
      exact ih hp
  | ref name => exact hR name h

end WeLang
