import WeLang.Proofs.Tracing

/-!
# What every run does again

As long as its steps are not counted, what a matcher does depends on where it is asked, on
the draft and on how deep it is, and on nothing else that has come of the parse so far. So
there are two ways to speak of what a matcher does at a depth: that some run of it did so
(`Matcher.Went`), and that every run does (`Matcher.Goes`). The first is what is known of a
parse that is over, and can be taken apart. The second is what is needed to say what another
parse will come to, and can be put together, as can be said of every run that it misses
(`Matcher.Lacks`) or that it is broken off by an error (`Matcher.Fails`).

What leads from the one to the other is not here. It takes a value that is read in two
places.
-/

namespace WeLang

variable {cx : Context} {o m o' δ : Nat} {d d₁ d' : Draft} {e : ParseError}

namespace Matcher

variable {p q : Matcher} {P : Trace} {E : ParseError.Cause → Prop}

/-! ## Some run -/

/-- What some run at a depth has left. -/
def Went (δ : Nat) (p : Matcher) : Trace := fun o d o' d' =>
  ∃ r r', r.depth = δ ∧ p o ⟨d, r⟩ = .ok o' ⟨d', r'⟩

/-- A node that some run has made, inside of a node at a depth. -/
def Made (cx : Context) (δ : Nat) (p : Matcher) (o : Nat) (n : Node) (o' : Nat) : Prop :=
  δ < cx.limits.maxDepth ∧ ∃ d, Went (δ + 1) p o .blank o' d ∧ n = d.finish (cx.source.spanOf o o')

theorem Went.traced (hp : Traced P p) (h : Went δ p o d o' d') : P o d o' d' := by
  obtain ⟨r, r', -, hrun⟩ := h
  exact hp hrun

/-- Where a run ends it is as deep as where it began. -/
theorem Lawful.depth {r r' : Progress} (hp : Lawful cx E p)
    (hrun : p o ⟨d, r⟩ = .ok o' ⟨d', r'⟩) : r'.depth = r.depth :=
  (hp.of_ok hrun).2.2.depth

theorem Lawful.lt_size {r r' : Progress} (hp : Lawful cx E p)
    (hrun : p o ⟨d, r⟩ = .ok o' ⟨d', r'⟩) (hlt : o < o') : o < cx.source.size := by
  have hbound := (hp.of_ok hrun).2.1
  omega

theorem went_andThen (hp : Lawful cx E p) (h : Went δ (andThen p q) o d o' d') :
    ∃ m e, Went δ p o d m e ∧ Went δ q m e o' d' := by
  obtain ⟨r, r', hr, hrun⟩ := h
  rw [andThen] at hrun
  split at hrun
  · cases hrun
  · next m u hfirst =>
      split at hrun
      · cases hrun
      · next hsecond =>
          cases hrun
          exact ⟨m, u.draft, ⟨r, u.progress, hr, hfirst⟩, u.progress, r',
            (hp.depth hfirst).trans hr, hsecond⟩

theorem went_andEdit {edit : Draft → Edit} (h : Went δ (andEdit p edit) o d o' d') :
    ∃ e, Went δ p o d o' e ∧ edit d e = .ok () d' := by
  obtain ⟨r, r', hr, hrun⟩ := h
  rw [andEdit] at hrun
  split at hrun
  · next stop u hfirst =>
      have hedit := State.draft_of_settle hrun
      obtain rfl := State.stop_of_settle hrun
      exact ⟨u.draft, ⟨r, u.progress, hr, hfirst⟩, hedit⟩
  · cases hrun

theorem went_child {attach : Node → Edit} (h : Went δ (child cx p attach) o d o' d') :
    ∃ n, Made cx δ p o n o' ∧ attach n d = .ok () d' := by
  obtain ⟨r, r', rfl, hrun⟩ := h
  rcases Nat.lt_or_ge r.depth cx.limits.maxDepth with hroom | hfull
  · rw [child_of_room hroom] at hrun
    split at hrun
    · cases hrun
    · next stop u hinner =>
        have hattach := State.draft_of_settle hrun
        obtain rfl := State.stop_of_settle hrun
        exact ⟨_, ⟨hroom, u.draft, ⟨_, u.progress, rfl, hinner⟩, rfl⟩, hattach⟩
  · rw [child_of_full hfull] at hrun
    cases hrun

theorem went_ahead (h : Went δ (ahead p) o d o' d') : o' = o ∧ ∃ m, Went δ p o d m d' := by
  obtain ⟨r, r', hr, hrun⟩ := h
  rw [ahead] at hrun
  split at hrun
  · next hfirst =>
      cases hrun
      exact ⟨rfl, _, r, r', hr, hfirst⟩
  · cases hrun

/-- A repetition is one run after the other, since the last round leaves nothing. -/
theorem went_many (hlawful : Lawful cx E p) (hp : Traced P p) (hundone : Undone p)
    (hgrow : ∀ ⦃o d o' d'⦄, P o d o' d' → d.Extends d') (h : Went δ (many cx p) o d o' d') :
    Trace.Star (Went δ p) o d o' d' := by
  have hround {pos next : Nat} {s t : State} (hs : s.progress.depth = δ)
      (hr : manyRound p pos s = .again next t) :
      Went δ p pos s.draft next t.draft ∧ t.progress.depth = δ := by
    rw [manyRound] at hr
    split at hr
    · next hrun =>
        split at hr
        · cases hr
          exact ⟨⟨s.progress, t.progress, hs, hrun⟩, (hlawful.depth hrun).trans hs⟩
        · cases hr
    · cases hr
    · cases hr
  obtain ⟨r, r', hr, hrun⟩ := h
  refine rounds_induction (motive := fun pos s out => s.progress.depth = δ →
    ∀ ⦃stop t⦄, out = .ok stop t → Trace.Star (Went δ p) pos s.draft stop t.draft)
    ?_ ?_ ?_ ?_ o ⟨d, r⟩ hr hrun
  · intro pos s stop t hstop _ stop' t' hout
    cases hout
    obtain ⟨rfl, hdraft⟩ := manyRound_stop hp hundone hgrow hstop
    rw [hdraft]
    exact .refl ..
  · intro pos s e t _ _ stop' t' hout
    cases hout
  · intro pos s next t hagain _ hs stop' t' hout
    cases hout
    exact .step (hround hs hagain).1 (.refl ..)
  · intro pos s next t hagain _ _ ih hs stop' t' hout
    obtain ⟨hwent, ht⟩ := hround hs hagain
    exact .step hwent (ih ht hout)

/-! ## Every run -/

/-- What every run at a depth leaves. -/
def Goes (δ : Nat) (p : Matcher) : Trace := fun o d o' d' =>
  ∀ r : Progress, r.depth = δ → ∃ r', r'.depth = δ ∧ p o ⟨d, r⟩ = .ok o' ⟨d', r'⟩

/-- A node that every run makes, inside of a node at a depth. -/
def Makes (cx : Context) (δ : Nat) (p : Matcher) (o : Nat) (n : Node) (o' : Nat) : Prop :=
  δ < cx.limits.maxDepth ∧ ∃ d, Goes (δ + 1) p o .blank o' d ∧ n = d.finish (cx.source.spanOf o o')

/-- Every run at a depth misses, and has done nothing to the draft. -/
def Lacks (δ : Nat) (p : Matcher) (o : Nat) (d : Draft) : Prop :=
  ∀ r : Progress, r.depth = δ → ∃ m r', r'.depth = δ ∧ p o ⟨d, r⟩ = .error (.miss m) ⟨d, r'⟩

/-- Every run at a depth is broken off by an error. -/
def Fails (δ : Nat) (p : Matcher) (o : Nat) (d : Draft) (e : ParseError) : Prop :=
  ∀ r : Progress, r.depth = δ → ∃ t, p o ⟨d, r⟩ = .error (.fatal e) t

theorem goes_done : Goes δ done o d o d :=
  fun r hr => ⟨r, hr, rfl⟩

theorem goes_andThen (hp : Goes δ p o d m d₁) (hq : Goes δ q m d₁ o' d') :
    Goes δ (andThen p q) o d o' d' := by
  intro r hr
  obtain ⟨r₁, hr₁, hfirst⟩ := hp r hr
  obtain ⟨r', hr', hsecond⟩ := hq r₁ hr₁
  exact ⟨r', hr', by simp only [andThen, hfirst, hsecond]⟩

theorem goes_andEdit {edit : Draft → Edit} (hp : Goes δ p o d o' d₁)
    (hedit : edit d d₁ = .ok () d') : Goes δ (andEdit p edit) o d o' d' := by
  intro r hr
  obtain ⟨r', hr', hrun⟩ := hp r hr
  exact ⟨r', hr', by simp only [andEdit, hrun, State.settle, hedit]⟩

theorem goes_endOfInput (h : cx.source.isSpent o = true) :
    Goes δ (endOfInput cx) o d (cx.source.skipBlanks o) d :=
  fun r hr => ⟨r, hr, by rw [endOfInput_eq, if_pos h]⟩

theorem goes_token {note : Lexeme → Edit} {x : Lexeme} (hsteps : cx.limits.maxSteps = none)
    (hx : cx.source.lexeme? o = some x) (hnote : note x d = .ok () d') :
    Goes δ (token cx x.kind note) o d x.span.stop d' := by
  intro r hr
  have hlex := Context.lex_of_lexeme? (Context.affords_of_unlimited hsteps r) hx
  have hlater := (Progress.Later.spend r).trans (.noteCollision _ cx x.kind x.span)
  refine ⟨_, hlater.depth.trans hr, ?_⟩
  simp only [token, hlex, State.settle, hnote]

theorem goes_expect {kind : TokenKind} (hsteps : cx.limits.maxSteps = none)
    (h : cx.source.Token kind o o') : Goes δ (expect cx kind) o d o' d := by
  obtain ⟨x, hx, rfl, rfl⟩ := h
  exact goes_token hsteps hx rfl

theorem goes_child {attach : Node → Edit} {n : Node} (h : Makes cx δ p o n o')
    (hattach : attach n d = .ok () d') :
    Goes δ (child cx p attach) o d o' d' := by
  obtain ⟨hroom, d₁, hgoes, rfl⟩ := h
  intro r hr
  obtain ⟨r', hr', hrun⟩ := hgoes r.deeper (congrArg (· + 1) hr)
  refine ⟨r'.leave, by rw [Progress.leave, hr']; rfl, ?_⟩
  rw [child_of_room (show r.depth < _ by omega), hrun]
  show State.settle ⟨d, r'.leave⟩ (attach (d₁.finish (cx.source.spanOf o o'))) o' = _
  rw [State.settle, hattach]

theorem Makes.le {n : Node} (hp : Lawful cx E p) (h : Makes cx δ p o n o') : o ≤ o' := by
  obtain ⟨-, d, hgoes, -⟩ := h
  obtain ⟨r, -, hrun⟩ := hgoes { depth := δ + 1 } rfl
  exact (hp.of_ok hrun).1

theorem lacks_token {kind : TokenKind} {note : Lexeme → Edit} (hsteps : cx.limits.maxSteps = none)
    (h : ¬ kind.Answers cx.source (cx.source.skipBlanks o)) : Lacks δ (token cx kind note) o d := by
  intro r hr
  have hlex := Context.lex_of_not_answers (Context.affords_of_unlimited hsteps r) h
  refine ⟨cx.missOf kind o, r.spend.noteMiss (cx.source.skipBlanks o) (.single kind), hr, ?_⟩
  simp only [token, hlex]

theorem lacks_andThen (h : Lacks δ p o d) : Lacks δ (andThen p q) o d := by
  intro r hr
  obtain ⟨m, r', hr', hrun⟩ := h r hr
  exact ⟨m.rebase o, r', hr', by simp only [andThen, hrun, Failure.rebase_miss]⟩

theorem fails_andThen (h : Fails δ p o d e) : Fails δ (andThen p q) o d e := by
  intro r hr
  obtain ⟨t, hrun⟩ := h r hr
  exact ⟨t, by simp only [andThen, hrun, Failure.rebase_fatal]⟩

theorem Goes.andThen_fails (hp : Goes δ p o d m d₁) (hq : Fails δ q m d₁ e) :
    Fails δ (andThen p q) o d e := by
  intro r hr
  obtain ⟨r₁, hr₁, hfirst⟩ := hp r hr
  obtain ⟨t, hsecond⟩ := hq r₁ hr₁
  exact ⟨t, by simp only [andThen, hfirst, hsecond, Failure.rebase_fatal]⟩

theorem fails_andEdit {edit : Draft → Edit} (h : Fails δ p o d e) :
    Fails δ (andEdit p edit) o d e := by
  intro r hr
  obtain ⟨t, hrun⟩ := h r hr
  exact ⟨t, by simp only [andEdit, hrun]⟩

/-- The node is made and not taken. -/
theorem fails_child {attach : Node → Edit} {n : Node} (h : Makes cx δ p o n o')
    (hattach : attach n d = .error e d') :
    Fails δ (child cx p attach) o d e := by
  obtain ⟨hroom, d₁, hgoes, rfl⟩ := h
  intro r hr
  obtain ⟨r', -, hrun⟩ := hgoes r.deeper (congrArg (· + 1) hr)
  refine ⟨⟨d', r'.leave⟩, ?_⟩
  rw [child_of_room (show r.depth < _ by omega), hrun]
  show State.settle ⟨d, r'.leave⟩ (attach (d₁.finish (cx.source.spanOf o o'))) o' = _
  rw [State.settle, hattach]

/-! ### Repetitions -/

/-- A run that is there and gets somewhere is a round of a repetition. -/
theorem many_of_goes {r : Progress} (hp : Lawful cx E p) (h : Goes δ p o d m d₁) (hlt : o < m)
    (hr : r.depth = δ) :
    ∃ r', r'.depth = δ ∧ many cx p o ⟨d, r⟩ = many cx p m ⟨d₁, r'⟩ := by
  obtain ⟨r', hr', hrun⟩ := h r hr
  have hround : manyRound p o ⟨d, r⟩ = .again m ⟨d₁, r'⟩ := by
    simp only [manyRound, hrun, if_pos hlt]
  refine ⟨r', hr', ?_⟩
  rw [many, rounds, hround]
  exact if_pos ⟨hlt, hp.lt_size hrun hlt⟩

theorem goes_many_of_lacks (h : Lacks δ p o d) : Goes δ (many cx p) o d o d := by
  intro r hr
  obtain ⟨m, r', hr', hrun⟩ := h r hr
  refine ⟨r', hr', ?_⟩
  have hround : manyRound p o ⟨d, r⟩ = .stop o (State.restore ⟨d, r'⟩ d.mark) := by
    simp only [manyRound, hrun]
  rw [many, rounds, hround, State.restore, Draft.restore_mark]

theorem fails_many (h : Fails δ p o d e) : Fails δ (many cx p) o d e := by
  intro r hr
  obtain ⟨t, hrun⟩ := h r hr
  refine ⟨t, ?_⟩
  have hround : manyRound p o ⟨d, r⟩ = .fail e t := by
    simp only [manyRound, hrun]
  rw [many, rounds, hround]

theorem Goes.many_goes (hp : Lawful cx E p) (h : Goes δ p o d m d₁) (hlt : o < m)
    (hrest : Goes δ (many cx p) m d₁ o' d') : Goes δ (many cx p) o d o' d' := by
  intro r hr
  obtain ⟨r₁, hr₁, heq⟩ := many_of_goes hp h hlt hr
  rw [heq]
  exact hrest r₁ hr₁

theorem Goes.many_fails (hp : Lawful cx E p) (h : Goes δ p o d m d₁) (hlt : o < m)
    (hrest : Fails δ (many cx p) m d₁ e) : Fails δ (many cx p) o d e := by
  intro r hr
  obtain ⟨r₁, hr₁, heq⟩ := many_of_goes hp h hlt hr
  rw [heq]
  exact hrest r₁ hr₁

end Matcher

end WeLang
