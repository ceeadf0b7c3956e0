import WeLang.Proofs.Limits

/-!
# What a match may spend

Every attempt at a token counts, and those of a pattern that is given up are not given
back. So it is not the tokens of a source that bound the attempts but the ways in which
a parser goes back, and this is an account of them, with sixty-four attempts for a byte.

Who matches pays for what was matched, and who fails pays for all that is left, whether
it was looked at or not: behind a failure there is nothing that anyone would have to pay
for. Either way there may be something more to pay, or less, that does not depend on the
source, which is not the same for a match and for a failure (`Thrifty`).

But misses are caught, and what was paid for them was for bytes that are still ahead.
Then the match that comes of it *owes*. A debt does no harm if the parser is at a token
that nobody wants who comes next, since then everybody fails at once, for a few attempts
(`Matcher.Balks`), and all that is left has been paid. A miss that cost no more than a
few attempts is no debt at all (`Matcher.MissesFor`). So a pattern is asked where it may
owe, and what follows it is asked to balk there, and for that it is enough to know with
which tokens a pattern begins (`Matcher.Shy`).
-/

namespace WeLang

variable {cx : Context} {D D' E : Nat → Prop} {c c' d d' : Int} {n n' start stop : Nat}
  {s t : State}

/-! ## Accounts -/

/-- An outcome that is paid for, with `c` for a match and `d` for a failure on top. A
match that ends where `D` holds may owe. -/
inductive Thrifty (cx : Context) (D : Nat → Prop) (c d : Int) (start : Nat) (s : State) :
    Step → Prop
  | ok {stop : Nat} {t : State} (le : start ≤ stop) (bound : stop ≤ cx.source.size)
      (paid : (t.progress.attempts : Int) ≤
        s.progress.attempts + 64 * ((stop : Int) - start) + c) :
      Thrifty cx D c d start s (.ok stop t)
  | owing {stop : Nat} {t : State} (le : start ≤ stop) (bound : stop ≤ cx.source.size)
      (here : D stop)
      (paid : (t.progress.attempts : Int) ≤
        s.progress.attempts + 64 * ((cx.source.size : Int) + 1 - start) + d) :
      Thrifty cx D c d start s (.ok stop t)
  | error {f : Failure} {t : State}
      (paid : (t.progress.attempts : Int) ≤
        s.progress.attempts + 64 * ((cx.source.size : Int) + 1 - start) + d) :
      Thrifty cx D c d start s (.error f t)

/-- An outcome that costs no more than `n` attempts and is not behind where it started. -/
inductive Idle (n start : Nat) (s : State) : Step → Prop
  | ok {t : State} (paid : t.progress.attempts ≤ s.progress.attempts + n) :
      Idle n start s (.ok start t)
  | error {f : Failure} {t : State} (paid : t.progress.attempts ≤ s.progress.attempts + n) :
      Idle n start s (.error f t)

namespace Matcher

/-- A matcher of which every outcome is paid for. -/
def Frugal (cx : Context) (D : Nat → Prop) (c d : Int) (p : Matcher) : Prop :=
  ∀ start s, start ≤ cx.source.size → Thrifty cx D c d start s (p start s)

/-- A matcher that never costs more than `n` attempts. -/
def Flat (n : Nat) (p : Matcher) : Prop :=
  ∀ start s, (p start s).progress.attempts ≤ s.progress.attempts + n

/-- A matcher whose misses cost no more than `n` attempts, except where `D` holds. -/
def MissesFor (D : Nat → Prop) (n : Nat) (p : Matcher) : Prop :=
  ∀ start s m t, p start s = .error (.miss m) t →
    t.progress.attempts ≤ s.progress.attempts + n ∨ D start

/-- A matcher that fails where `D` holds, for no more than `n` attempts. -/
def Balks (D : Nat → Prop) (n : Nat) (p : Matcher) : Prop :=
  ∀ start s, D start → ∃ f t, p start s = .error f t ∧
    t.progress.attempts ≤ s.progress.attempts + n

/-- A matcher that gets nowhere where `D` holds, for no more than `n` attempts. -/
def Idles (D : Nat → Prop) (n : Nat) (p : Matcher) : Prop :=
  ∀ start s, D start → Idle n start s (p start s)

end Matcher

/-- Nowhere, as a place where a match may owe. -/
def Nowhere : Nat → Prop :=
  fun _ => False

/-! ## Balking -/

/-- Whether a token of one of some kinds is next. -/
def Source.Begins (src : Source) (ks : List TokenKind) (o : Nat) : Prop :=
  ∃ x, src.lexeme? o = some x ∧ x.kind ∈ ks

/-- A matcher that asks for a token of one of some kinds first, for each kind once. -/
def Matcher.Shy (cx : Context) (ks : List TokenKind) (p : Matcher) : Prop :=
  p.Balks (fun o => ¬ cx.source.Begins ks o) ks.length

namespace Source.Begins

variable {src : Source} {ks js : List TokenKind} {o : Nat}

theorem mono (h : src.Begins ks o) (hsub : ks ⊆ js) : src.Begins js o := by
  obtain ⟨x, hx, hmem⟩ := h
  exact ⟨x, hx, hsub hmem⟩

/-- There is one token that is next. -/
theorem disjoint (h : src.Begins ks o) (hdis : ∀ k ∈ ks, k ∉ js) : ¬ src.Begins js o := by
  intro h'
  obtain ⟨x, hx, hmem⟩ := h
  obtain ⟨y, hy, hmem'⟩ := h'
  obtain rfl := Option.some.inj (hx.symm.trans hy)
  exact hdis _ hmem hmem'

end Source.Begins

@[simp] theorem State.progress_restore (s : State) (m : Draft.Mark) :
    (s.restore m).progress = s.progress :=
  rfl

theorem Progress.attempts_noteCollision (p : Progress) (cx : Context) (kind : TokenKind)
    (span : Span) : (p.noteCollision cx kind span).attempts = p.attempts := by
  rw [Progress.noteCollision]
  split
  · rfl
  · split <;> rfl

namespace Matcher

variable {p q : Matcher} {ks js : List TokenKind}

theorem Balks.mono (h : Balks D n p) (hsub : ∀ o, E o → D o) : Balks E n p :=
  fun start s hE => h start s (hsub start hE)

theorem Shy.balks (h : Shy cx ks p) (hdis : ∀ k ∈ js, k ∉ ks) :
    Balks (cx.source.Begins js) ks.length p :=
  h.mono fun _ hbegins => hbegins.disjoint hdis

theorem Shy.missesFor (h : Shy cx ks p) : MissesFor (cx.source.Begins ks) ks.length p := by
  intro start s m t hrun
  by_cases hbegins : cx.source.Begins ks start
  · exact .inr hbegins
  · obtain ⟨f, t', hrun', hpaid⟩ := h start s hbegins
    cases hrun.symm.trans hrun'
    exact .inl hpaid

theorem MissesFor.mono (h : MissesFor D n p) (hsub : ∀ o, D o → E o) : MissesFor E n p :=
  fun start s m t hrun => (h start s m t hrun).imp_right (hsub start)

theorem balks_nowhere (p : Matcher) : Balks Nowhere 0 p :=
  fun _ _ h => h.elim

theorem token_shy (cx : Context) (kind : TokenKind) (note : Lexeme → Edit) :
    Shy cx [kind] (token cx kind note) := by
  intro start s hno
  have hlex := cx.lexed kind start s.progress
  rw [token]
  generalize cx.lex kind start s.progress = out at hlex
  cases hlex with
  | found here hk => exact absurd ⟨_, here, hk ▸ List.mem_singleton_self _⟩ hno
  | missing => exact ⟨_, _, rfl, Nat.le_refl _⟩
  | unclosed => exact ⟨_, _, rfl, Nat.le_refl _⟩
  | exhausted => exact ⟨_, _, rfl, Nat.le_refl _⟩

theorem endOfInput_balks (cx : Context) (ks : List TokenKind) :
    Balks (cx.source.Begins ks) 0 (endOfInput cx) := by
  intro start s hbegins
  obtain ⟨x, hx, -⟩ := hbegins
  rw [endOfInput_eq, if_neg (by simp [Source.isSpent_of_lexeme? hx])]
  exact ⟨_, _, rfl, Nat.le_refl _⟩

theorem andThen_balks (h : Balks D n p) (q : Matcher) : Balks D n (andThen p q) := by
  intro start s hD
  obtain ⟨f, t, hrun, hpaid⟩ := h start s hD
  rw [andThen, hrun]
  exact ⟨_, _, rfl, hpaid⟩

/-- Behind a matcher that gets nowhere the next one is asked in the same place. -/
theorem Idles.andThen_balks (h : Idles D n p) (h' : Balks D n' q) :
    Balks D (n + n') (andThen p q) := by
  intro start s hD
  have hp := h start s hD
  rw [andThen]
  generalize p start s = out at hp
  cases hp with
  | error paid => exact ⟨_, _, rfl, by omega⟩
  | @ok t paid =>
      obtain ⟨f, u, hrun, hpaid⟩ := h' start t hD
      simp only [hrun]
      exact ⟨_, _, rfl, by omega⟩

theorem never_balks (D : Nat → Prop) : Balks D 0 never :=
  fun _ _ _ => ⟨_, _, rfl, Nat.le_refl _⟩

theorem orElse_balks (h : Balks D n p) (h' : Balks D n' q) :
    Balks D (n + n') (orElse p q) := by
  intro start s hD
  obtain ⟨f, t, hrun, hpaid⟩ := h start s hD
  rw [orElse, hrun]
  cases f with
  | fatal e => exact ⟨_, _, rfl, by omega⟩
  | miss m =>
      obtain ⟨g, u, hrun', hpaid'⟩ := h' start (t.restore s.draft.mark) hD
      rw [State.progress_restore] at hpaid'
      simp only [hrun']
      cases g <;> exact ⟨_, _, rfl, by omega⟩

theorem child_balks (h : Balks D n p) (attach : Node → Edit) :
    Balks D n (child cx p attach) := by
  intro start s hD
  rcases Nat.lt_or_ge s.progress.depth cx.limits.maxDepth with hroom | hfull
  · obtain ⟨f, t, hrun, hpaid⟩ := h start ⟨.blank, s.progress.deeper⟩ hD
    rw [child_of_room hroom, hrun]
    exact ⟨_, _, rfl, hpaid⟩
  · rw [child_of_full hfull]
    exact ⟨_, _, rfl, Nat.le_add_right _ _⟩

theorem andEdit_balks (h : Balks D n p) (edit : Draft → Edit) : Balks D n (andEdit p edit) := by
  intro start s hD
  obtain ⟨f, t, hrun, hpaid⟩ := h start s hD
  rw [andEdit, hrun]
  exact ⟨_, _, rfl, hpaid⟩

theorem Balks.optional_idles (h : Balks D n p) : Idles D n (optional p) := by
  intro start s hD
  obtain ⟨f, t, hrun, hpaid⟩ := h start s hD
  rw [Matcher.optional, hrun]
  cases f with
  | fatal e => exact .error hpaid
  | miss m => exact .ok hpaid

theorem Balks.many_idles (h : Balks D n p) : Idles D n (many cx p) := by
  intro start s hD
  obtain ⟨f, t, hrun, hpaid⟩ := h start s hD
  rw [many, rounds, manyRound, hrun]
  cases f with
  | fatal e => exact .error hpaid
  | miss m => exact .ok hpaid

/-! ## Small patterns -/

theorem token_flat (cx : Context) (kind : TokenKind) (note : Lexeme → Edit) :
    Flat 1 (token cx kind note) := by
  intro start s
  have hlex := cx.lexed kind start s.progress
  rw [token]
  generalize cx.lex kind start s.progress = out at hlex
  cases hlex with
  | found =>
      rw [Step.progress_settle]
      exact Nat.le_of_eq (Progress.attempts_noteCollision ..)
  | missing => exact Nat.le_refl _
  | unclosed => exact Nat.le_refl _
  | exhausted => exact Nat.le_refl _

theorem endOfInput_flat (cx : Context) : Flat 0 (endOfInput cx) := by
  intro start s
  rw [endOfInput_eq]
  split <;> exact Nat.le_refl _

theorem done_flat : Flat 0 done :=
  fun _ _ => Nat.le_refl _

theorem andThen_flat (h : Flat n p) (h' : Flat n' q) : Flat (n + n') (andThen p q) := by
  intro start s
  have hp := h start s
  rw [andThen]
  cases hrun : p start s with
  | error f t =>
      rw [hrun] at hp
      exact Nat.le_trans hp (by omega)
  | ok next t =>
      rw [hrun] at hp
      have hp : t.progress.attempts ≤ s.progress.attempts + n := hp
      have hq := h' next t
      simp only
      cases hrun' : q next t <;>
        · rw [hrun'] at hq
          exact Nat.le_trans hq (by omega)

theorem Flat.missesFor (h : Flat n p) : MissesFor Nowhere n p := by
  intro start s m t hrun
  have hp := h start s
  rw [hrun] at hp
  exact .inl hp

end Matcher

/-! ## Everything is paid for -/

namespace Thrifty

theorem mono {out : Step} (h : Thrifty cx D c d start s out) (hD : ∀ o, D o → D' o)
    (hc : c ≤ c') (hd : d ≤ d') : Thrifty cx D' c' d' start s out := by
  cases h with
  | ok le bound paid => exact .ok le bound (by omega)
  | owing le bound here paid => exact .owing le bound (hD _ here) (by omega)
  | error paid => exact .error (by omega)

/-- What is paid for from some place on is paid for from before, if what is between is. -/
theorem after {mid : Nat} {out : Step} (le : start ≤ mid)
    (paid : (t.progress.attempts : Int) ≤
      s.progress.attempts + 64 * ((mid : Int) - start) + c)
    (h : Thrifty cx D c' d' mid t out) :
    Thrifty cx D (c + c') (c + d') start s out := by
  cases h with
  | ok le' bound paid' => exact .ok (by omega) bound (by omega)
  | owing le' bound here paid' => exact .owing (by omega) bound here (by omega)
  | error paid' => exact .error (by omega)

/-- A miss that is caught was cheap, or it is owed. -/
theorem caught {f : Failure} (h : Thrifty cx E c d start s (.error f t))
    (hstart : start ≤ cx.source.size)
    (hmiss : t.progress.attempts ≤ s.progress.attempts + n ∨ D start) (m : Draft.Mark) :
    Thrifty cx D n d start s (.ok start (t.restore m)) := by
  cases h with
  | error paid =>
      rcases hmiss with hcheap | here
      · refine .ok (Nat.le_refl _) hstart ?_
        rw [State.progress_restore]
        omega
      · exact .owing (Nat.le_refl _) hstart here paid

theorem settle {edit : Edit} (le : start ≤ stop) (bound : stop ≤ cx.source.size)
    (hcd : c ≤ d + 64) (paid : (t.progress.attempts : Int) ≤
      s.progress.attempts + 64 * ((stop : Int) - start) + c) :
    Thrifty cx D c d start s (t.settle edit stop) := by
  rw [State.settle]
  split
  · exact .ok le bound paid
  · exact .error (by simp only; omega)

theorem settle_owing {edit : Edit} (le : start ≤ stop) (bound : stop ≤ cx.source.size)
    (here : D stop) (paid : (t.progress.attempts : Int) ≤
      s.progress.attempts + 64 * ((cx.source.size : Int) + 1 - start) + d) :
    Thrifty cx D c d start s (t.settle edit stop) := by
  rw [State.settle]
  split
  · exact .owing le bound here paid
  · exact .error paid

end Thrifty

namespace Matcher

variable {p q : Matcher}

theorem Frugal.mono (h : Frugal cx D c d p) (hc : c ≤ c') (hd : d ≤ d') :
    Frugal cx D c' d' p :=
  fun start s hstart => (h start s hstart).mono (fun _ => id) hc hd

/-- A token is at least one byte long and costs one attempt, and where it is missing there
is always the end of the source to be paid for. -/
theorem token_frugal (cx : Context) (kind : TokenKind) (note : Lexeme → Edit) :
    Frugal cx Nowhere (-63) (-63) (token cx kind note) := by
  intro start s hstart
  have hlex := cx.lexed kind start s.progress
  rw [token]
  generalize cx.lex kind start s.progress = out at hlex
  have hspend : (s.progress.spend.attempts : Int) = s.progress.attempts + 1 := rfl
  cases hlex with
  | found here _ =>
      have hbounds := Source.lexeme?_bounds here
      refine .settle (by omega) (by omega) (by omega) ?_
      simp only [Progress.attempts_noteCollision]
      omega
  | missing =>
      refine .error ?_
      simp only [Progress.noteMiss]
      omega
  | unclosed =>
      refine .error ?_
      simp only
      omega
  | exhausted =>
      refine .error ?_
      simp only
      omega

theorem endOfInput_frugal (cx : Context) : Frugal cx Nowhere 0 (-64) (endOfInput cx) := by
  intro start s hstart
  have hle := cx.source.le_skipBlanks start
  have hbound := cx.source.skipBlanks_le start
  rw [endOfInput_eq]
  split
  · exact .ok hle (by omega) (by omega)
  · refine .error ?_
    simp only [Progress.noteMiss]
    omega

theorem never_frugal (hd : -64 ≤ d) : Frugal cx D c d never :=
  fun _ _ hstart => .error (by omega)

/-- The second may owe where the first does not, and balks where the first does. -/
theorem andThen_frugal (hp : Frugal cx D c d p) (hq : Frugal cx D' c' d' q)
    (hbalk : Balks D n q) : Frugal cx D' (c + c') (max (d + n) (c + d')) (andThen p q) := by
  intro start s hstart
  have h := hp start s hstart
  rw [andThen]
  generalize p start s = out at h
  cases h with
  | error paid => exact .error (by omega)
  | @owing next t le bound here paid =>
      obtain ⟨f, u, hrun, hpaid⟩ := hbalk next t here
      simp only [hrun]
      exact .error (by omega)
  | @ok next t le bound paid =>
      have h' := Thrifty.after le paid (hq next t bound)
      have h' := h'.mono (fun _ => id) (Int.le_refl _) (Int.le_max_right (d + n) _)
      simp only
      generalize q next t = out at h'
      cases h' with
      | ok le' bound' paid' => exact .ok le' bound' paid'
      | owing le' bound' here' paid' => exact .owing le' bound' here' paid'
      | error paid' => exact .error paid'

/-- Behind a match that owes, nothing is still there. -/
theorem andThen_done_frugal (hp : Frugal cx D c d p) : Frugal cx D c d (andThen p done) := by
  intro start s hstart
  have h := hp start s hstart
  rw [andThen]
  generalize p start s = out at h
  cases h with
  | error paid => exact .error paid
  | owing le bound here paid => exact .owing le bound here paid
  | ok le bound paid => exact .ok le bound paid

/-- The second is tried where the first has missed. Either that was cheap, or the second
balks there. -/
theorem orElse_frugal (hp : Frugal cx D c d p) (hq : Frugal cx D c' d' q)
    (hmiss : MissesFor E n p) (hbalk : Balks E n' q) :
    Frugal cx D (max c (n + c')) (max (d + n') (n + d')) (orElse p q) := by
  intro start s hstart
  have h := hp start s hstart
  rw [orElse]
  cases hrun : p start s with
  | ok next t =>
      rw [hrun] at h
      exact h.mono (fun _ => id) (by omega) (by omega)
  | error f t =>
      rw [hrun] at h
      cases f with
      | fatal e => exact h.mono (fun _ => id) (by omega) (by omega)
      | miss m =>
          simp only
          rcases hmiss start s m t hrun with hcheap | hE
          · have hpaid : ((t.restore s.draft.mark).progress.attempts : Int) ≤
                s.progress.attempts + 64 * ((start : Int) - start) + n := by
              rw [State.progress_restore]
              omega
            have h' := Thrifty.after (Nat.le_refl _) hpaid (hq start _ hstart)
            have h' := h'.mono (fun _ => id) (Int.le_max_right c _)
              (Int.le_max_right (d + n') _)
            generalize q start (t.restore s.draft.mark) = out at h'
            cases h' with
            | ok le bound paid => exact .ok le bound paid
            | owing le bound here paid => exact .owing le bound here paid
            | @error f u paid => cases f <;> exact .error paid
          · obtain ⟨g, u, hrun', hpaid⟩ := hbalk start (t.restore s.draft.mark) hE
            rw [State.progress_restore] at hpaid
            rw [hrun']
            cases h with
            | error paid => cases g <;> exact .error (by omega)

theorem optional_frugal (hp : Frugal cx D c d p) (hflat : Flat n p) :
    Frugal cx D (max c n) d (optional p) := by
  intro start s hstart
  have h := hp start s hstart
  have hcost := hflat start s
  rw [Matcher.optional]
  cases hrun : p start s with
  | ok next t =>
      rw [hrun] at h
      exact h.mono (fun _ => id) (by omega) (Int.le_refl _)
  | error f t =>
      rw [hrun] at h hcost
      have hcost : t.progress.attempts ≤ s.progress.attempts + n := hcost
      cases f with
      | fatal e => exact h.mono (fun _ => id) (by omega) (Int.le_refl _)
      | miss m =>
          refine .ok (Nat.le_refl _) hstart ?_
          rw [State.progress_restore]
          omega

theorem ahead_frugal (hflat : Flat n p) : Frugal cx Nowhere n (n - 64) (ahead p) := by
  intro start s hstart
  have hcost := hflat start s
  rw [ahead]
  cases hrun : p start s with
  | ok next t =>
      rw [hrun] at hcost
      have hcost : t.progress.attempts ≤ s.progress.attempts + n := hcost
      exact .ok (Nat.le_refl _) hstart (by omega)
  | error f t =>
      rw [hrun] at hcost
      have hcost : t.progress.attempts ≤ s.progress.attempts + n := hcost
      exact .error (by omega)

/-! ## Repetitions -/

/-- A round that is paid for. Another round may follow one that owes as well. -/
inductive RoundThrifty (cx : Context) (E D : Nat → Prop) (c d : Int) (pos : Nat) (s : State) :
    Round → Prop
  | again {next : Nat} {t : State} (le : pos ≤ next) (bound : next ≤ cx.source.size)
      (paid : (t.progress.attempts : Int) ≤
        s.progress.attempts + 64 * ((next : Int) - pos)) :
      RoundThrifty cx E D c d pos s (.again next t)
  | owing {next : Nat} {t : State} (le : pos ≤ next) (bound : next ≤ cx.source.size)
      (here : E next)
      (paid : (t.progress.attempts : Int) ≤
        s.progress.attempts + 64 * ((cx.source.size : Int) + 1 - pos) + d) :
      RoundThrifty cx E D c d pos s (.again next t)
  | stop {stop : Nat} {t : State} (h : Thrifty cx D c d pos s (.ok stop t)) :
      RoundThrifty cx E D c d pos s (.stop stop t)
  | fail {e : ParseError} {t : State} (h : Thrifty cx D c d pos s (.error (.fatal e) t)) :
      RoundThrifty cx E D c d pos s (.fail e t)

/-- Rounds are paid for one by one. Behind a round that owes the repetition gets nowhere
any more. -/
theorem rounds_frugal {round : Nat → State → Round} (hsub : ∀ o, E o → D o) (hc : 0 ≤ c)
    (hround : ∀ pos s, pos ≤ cx.source.size → RoundThrifty cx E D c d pos s (round pos s))
    (hidle : Idles E n (rounds cx.source.size round)) :
    Frugal cx D c (d + n) (rounds cx.source.size round) := by
  intro start s hstart
  refine rounds_induction (motive := fun pos s out => pos ≤ cx.source.size →
    Thrifty cx D c (d + n) pos s out) ?_ ?_ ?_ ?_ start s hstart
  · intro pos s stop s' hr hpos
    have h := hround pos s hpos
    rw [hr] at h
    cases h with
    | stop h => exact h.mono (fun _ => id) (Int.le_refl _) (by omega)
  · intro pos s e s' hr hpos
    have h := hround pos s hpos
    rw [hr] at h
    cases h with
    | fail h => exact h.mono (fun _ => id) (Int.le_refl _) (by omega)
  · intro pos s next s' hr _ hpos
    have h := hround pos s hpos
    rw [hr] at h
    cases h with
    | again le bound paid => exact .ok le bound (by omega)
    | owing le bound here paid => exact .owing le bound (hsub _ here) (by omega)
  · intro pos s next s' hr _ _ ih hpos
    have h := hround pos s hpos
    rw [hr] at h
    cases h with
    | again le bound paid =>
        have hpaid : (s'.progress.attempts : Int) ≤
            s.progress.attempts + 64 * ((next : Int) - pos) + 0 := by omega
        exact (Thrifty.after le hpaid (ih bound)).mono (fun _ => id) (by omega) (by omega)
    | owing le bound here paid =>
        have hrest := hidle next s' here
        generalize rounds cx.source.size round next s' = out at hrest
        cases hrest with
        | ok paid' => exact .owing le bound (hsub _ here) (by omega)
        | error paid' => exact .error (by omega)

theorem many_frugal (hp : Frugal cx E c d p) (hc : c ≤ 0) (hsub : ∀ o, E o → D o)
    (hmiss : MissesFor D n p) (hbalk : Balks E n' p) :
    Frugal cx D n (d + n') (many cx p) := by
  refine rounds_frugal hsub (by omega) (fun pos s hpos => ?_) hbalk.many_idles
  have h := hp pos s hpos
  rw [manyRound]
  cases hrun : p pos s with
  | ok next t =>
      rw [hrun] at h
      simp only
      split
      · cases h with
        | ok le bound paid => exact .again le bound (by omega)
        | owing le bound here paid => exact .owing le bound here paid
      · next hstay =>
          cases h with
          | ok le bound paid =>
              refine .stop (.ok (Nat.le_refl _) hpos ?_)
              rw [State.progress_restore]
              omega
          | owing le bound here paid =>
              obtain rfl : next = pos := by omega
              exact .stop (.owing (Nat.le_refl _) hpos (hsub _ here) paid)
  | error f t =>
      rw [hrun] at h
      cases f with
      | fatal e =>
          cases h with
          | error paid => exact .fail (.error paid)
      | miss m => exact .stop (h.caught hpos (hmiss pos s m t hrun) _)

/-- A separator and an item. Where the item is missing, the separator has been paid for
and the miss may be owed. -/
theorem separatedRound_thrifty (hp : Frugal cx Nowhere c d p) (hc : c ≤ 0) (hd : -63 ≤ d)
    (hmiss : MissesFor D n p) (separator : TokenKind) {pos : Nat} (hpos : pos ≤ cx.source.size) :
    RoundThrifty cx Nowhere D (n + 1) d pos s (separatedRound cx p separator pos s) := by
  have hsep : Thrifty cx Nowhere (-63) (-63) pos s (expect cx separator pos s) :=
    token_frugal cx separator _ pos s hpos
  have hcost : (expect cx separator pos s).progress.attempts ≤ s.progress.attempts + 1 :=
    token_flat cx separator _ pos s
  rw [separatedRound]
  generalize expect cx separator pos s = out at hsep hcost
  cases hsep with
  | owing _ _ here _ => exact here.elim
  | @error f t paid =>
      have hcost : t.progress.attempts ≤ s.progress.attempts + 1 := hcost
      cases f with
      | fatal e => exact .fail (.error (by omega))
      | miss m => exact .stop (.ok (Nat.le_refl _) hpos (by omega))
  | @ok next t le bound paid =>
      have h := hp next t bound
      simp only
      cases hrun : p next t with
      | ok stop u =>
          rw [hrun] at h
          cases h with
          | owing _ _ here _ => exact here.elim
          | ok le' bound' paid' => exact .again (by omega) bound' (by omega)
      | error f u =>
          rw [hrun] at h
          cases f with
          | fatal e =>
              cases h with
              | error paid' => exact .fail (.error (by omega))
          | miss m =>
              have h' := h.caught bound (hmiss next t m u hrun) t.draft.mark
              exact .stop ((Thrifty.after le paid h').mono (fun _ => id) (by omega) (by omega))

theorem separated_frugal (hp : Frugal cx Nowhere c d p) (hc : c ≤ 0) (hd : -63 ≤ d)
    (hmiss : MissesFor D n p) (separator : TokenKind) :
    Frugal cx D (n + 1) d (separated cx p separator) := by
  have hrounds : Frugal cx D (n + 1) (d + (0 : Nat))
      (rounds cx.source.size (separatedRound cx p separator)) :=
    rounds_frugal (E := Nowhere) (fun _ h => h.elim) (by omega)
      (fun _ _ => separatedRound_thrifty hp hc hd hmiss separator) fun _ _ h => h.elim
  intro start s hstart
  have h := hp start s hstart
  rw [separated]
  cases hrun : p start s with
  | ok next t =>
      rw [hrun] at h
      cases h with
      | owing _ _ here _ => exact here.elim
      | ok le bound paid =>
          exact (Thrifty.after le paid (hrounds next t bound)).mono (fun _ => id)
            (by omega) (by omega)
  | error f t =>
      rw [hrun] at h
      cases f with
      | fatal e =>
          cases h with
          | error paid => exact .error paid
      | miss m =>
          exact (h.caught hstart (hmiss start s m t hrun) _).mono (fun _ => id) (by omega)
            (Int.le_refl _)

/-! ## Nodes -/

theorem child_frugal (hp : Frugal cx D c d p) (hcd : c ≤ d + 64) (hd : -64 ≤ d)
    (attach : Node → Edit) : Frugal cx D c d (child cx p attach) := by
  intro start s hstart
  rcases Nat.lt_or_ge s.progress.depth cx.limits.maxDepth with hroom | hfull
  · have h := hp start ⟨.blank, s.progress.deeper⟩ hstart
    rw [child_of_room hroom]
    generalize p start ⟨.blank, s.progress.deeper⟩ = out at h
    cases h with
    | ok le bound paid => exact .settle le bound hcd paid
    | owing le bound here paid => exact .settle_owing le bound here paid
    | error paid => exact .error paid
  · rw [child_of_full hfull]
    exact .error (by omega)

theorem andEdit_frugal (hp : Frugal cx D c d p) (hcd : c ≤ d + 64) (edit : Draft → Edit) :
    Frugal cx D c d (andEdit p edit) := by
  intro start s hstart
  have h := hp start s hstart
  rw [andEdit]
  generalize p start s = out at h
  cases h with
  | ok le bound paid => exact .settle le bound hcd paid
  | owing le bound here paid => exact .settle_owing le bound here paid
  | error paid => exact .error paid

end Matcher

end WeLang
