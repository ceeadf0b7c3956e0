import WeLang.Proofs.Recognition

/-!
# What a parse holds on to

Many a statement about the progress of a parse is of one kind. It is about the
progress and the tokens up to the place where the parse is, it holds in the
beginning, and nothing that happens at a place on the path makes it wrong. Then it
holds in the end, whatever was tried and given up in between.

`Progress.Stable` says what happens at a place: a token is asked for and is there,
or it is not; more than blanks is left; the nesting changes; and the parse goes back
to a place where it was before, with the progress that it has. The last is why a
stable condition is a condition on how far a parse is *at least*: what holds behind
more tokens holds behind fewer.

Nothing has to be known about a pattern for that, so every pattern holds on to every
stable condition (`Pattern.run_upholds`).
-/

namespace WeLang

variable {cx : Context} {I : List Lexeme → Progress → Prop} {us xs : List Lexeme}
  {start stop : Nat} {s t : State}

/-- A condition on the progress of a parse behind some tokens of the path, which nothing
that happens there makes wrong. -/
structure Progress.Stable (cx : Context) (I : List Lexeme → Progress → Prop) : Prop where
  back {us xs : List Lexeme} {p : Progress} : I (us ++ xs) p → I us p
  nest {us : List Lexeme} {p : Progress} (depth : Nat) : I us p → I us { p with depth }
  spend {us : List Lexeme} {p : Progress} : I us p → I us p.spend
  found {us : List Lexeme} {o : Nat} {x : Lexeme} {p : Progress} :
    cx.source.Path 0 us o → cx.source.lexeme? o = some x → I us p →
      I (us ++ [x]) (p.noteCollision cx x.kind x.span)
  missing {us : List Lexeme} {o : Nat} {k : TokenKind} {p : Progress} :
    cx.source.Path 0 us o → ¬ k.Answers cx.source (cx.source.skipBlanks o) → I us p →
      I us (p.noteMiss (cx.source.skipBlanks o) (.single k))
  left {us : List Lexeme} {o : Nat} {p : Progress} :
    cx.source.Path 0 us o → cx.source.isSpent o = false → I us p →
      I us (p.noteMiss (cx.source.skipBlanks o) ∅)

/-- An outcome that holds on to a condition, of a matcher that started behind `us`. -/
inductive Upheld (cx : Context) (I : List Lexeme → Progress → Prop) (us : List Lexeme)
    (start : Nat) : Step → Prop
  | ok {xs : List Lexeme} {stop : Nat} {t : State} (reads : cx.source.Reaches start xs stop)
      (holds : I (us ++ xs) t.progress) : Upheld cx I us start (.ok stop t)
  | error {f : Failure} {t : State} (holds : I us t.progress) :
      Upheld cx I us start (.error f t)

/-- A matcher that holds on to a condition. -/
def Matcher.Upholds (cx : Context) (I : List Lexeme → Progress → Prop) (p : Matcher) : Prop :=
  ∀ us start s, cx.source.Reaches 0 us start → I us s.progress → Upheld cx I us start (p start s)

namespace Upheld

theorem stay (h : I us t.progress) : Upheld cx I us start (.ok start t) :=
  .ok (.refl _ _) (by rwa [List.append_nil])

/-- Behind more tokens an outcome that holds on to a condition does so from before. -/
theorem after {mid : Nat} {out : Step} (hI : Progress.Stable cx I)
    (hxs : cx.source.Reaches start xs mid) (h : Upheld cx I (us ++ xs) mid out) :
    Upheld cx I us start out := by
  cases h with
  | ok reads holds =>
      rw [List.append_assoc] at holds
      exact .ok (hxs.trans reads) holds
  | error holds => exact .error (hI.back holds)

theorem settle (hI : Progress.Stable cx I) {edit : Edit}
    (hxs : cx.source.Reaches start xs stop) (h : I (us ++ xs) s.progress) :
    Upheld cx I us start (s.settle edit stop) := by
  rw [State.settle]
  split
  · exact .ok hxs h
  · exact .error (hI.back h)

end Upheld

namespace Matcher

variable {p q : Matcher} {round : Nat → State → Round}

theorem token_upholds (hI : Progress.Stable cx I) (kind : TokenKind) (note : Lexeme → Edit) :
    Upholds cx I (token cx kind note) := by
  intro us start s hus hs
  have hlex := cx.lexed kind start s.progress
  rw [token]
  obtain ⟨m, hpath, hm⟩ := hus
  generalize cx.lex kind start s.progress = out at hlex
  cases hlex with
  | found here hk =>
      subst hk
      rw [← Source.lexeme?_congr hm] at here
      refine .settle hI ?_ (hI.found hpath here (hI.spend hs))
      exact .of_lexeme? ((Source.lexeme?_congr hm).symm.trans here)
  | missing absent =>
      rw [← hm] at absent ⊢
      exact .error (hI.missing hpath absent (hI.spend hs))
  | unclosed => exact .error (hI.spend hs)
  | exhausted => exact .error (hI.spend hs)

theorem endOfInput_upholds (hI : Progress.Stable cx I) : Upholds cx I (endOfInput cx) := by
  intro us start s hus hs
  obtain ⟨m, hpath, hm⟩ := hus
  rw [endOfInput_eq]
  split
  · have hreads : cx.source.Reaches start [] (cx.source.skipBlanks start) :=
      ⟨start, .nil start, (cx.source.skipBlanks_idem start).symm⟩
    exact .ok hreads (by rwa [List.append_nil])
  · next hleft =>
      have hleft : cx.source.isSpent m = false := by
        simpa [Source.isSpent, hm] using hleft
      rw [← hm]
      exact .error (hI.left hpath hleft hs)

theorem done_upholds : Upholds cx I done :=
  fun _ _ _ _ hs => .stay hs

theorem never_upholds : Upholds cx I never :=
  fun _ _ _ _ hs => .error hs

theorem andThen_upholds (hI : Progress.Stable cx I) (hp : Upholds cx I p)
    (hq : Upholds cx I q) : Upholds cx I (andThen p q) := by
  intro us start s hus hs
  have h := hp us start s hus hs
  rw [andThen]
  generalize p start s = out at h
  cases h with
  | error holds => exact .error holds
  | @ok xs next t reads holds =>
      have h' := Upheld.after hI reads (hq (us ++ xs) next t (hus.trans reads) holds)
      simp only
      generalize q next t = out at h'
      cases h' with
      | error holds => exact .error holds
      | ok reads holds => exact .ok reads holds

theorem orElse_upholds (hp : Upholds cx I p) (hq : Upholds cx I q) :
    Upholds cx I (orElse p q) := by
  intro us start s hus hs
  have h := hp us start s hus hs
  rw [orElse]
  generalize p start s = out at h
  cases h with
  | ok reads holds => exact .ok reads holds
  | @error f after holds =>
      cases f with
      | fatal e => exact .error holds
      | miss m =>
          have h' := hq us start (after.restore s.draft.mark) hus holds
          simp only
          generalize q start (after.restore s.draft.mark) = out at h'
          cases h' with
          | ok reads holds => exact .ok reads holds
          | @error f _ holds => cases f <;> exact .error holds

theorem optional_upholds (hp : Upholds cx I p) : Upholds cx I (optional p) := by
  intro us start s hus hs
  have h := hp us start s hus hs
  rw [optional]
  generalize p start s = out at h
  cases h with
  | ok reads holds => exact .ok reads holds
  | @error f after holds =>
      cases f with
      | fatal e => exact .error holds
      | miss m => exact .stay holds

/-- To look ahead is to go back. -/
theorem ahead_upholds (hI : Progress.Stable cx I) (hp : Upholds cx I p) :
    Upholds cx I (ahead p) := by
  intro us start s hus hs
  have h := hp us start s hus hs
  rw [ahead]
  generalize p start s = out at h
  cases h with
  | ok reads holds => exact .stay (hI.back holds)
  | error holds => exact .error holds

/-! ## Repetitions -/

/-- A round that holds on to a condition. -/
inductive RoundUpheld (cx : Context) (I : List Lexeme → Progress → Prop) (us : List Lexeme)
    (pos : Nat) : Round → Prop
  | again {xs : List Lexeme} {next : Nat} {t : State} (reads : cx.source.Reaches pos xs next)
      (holds : I (us ++ xs) t.progress) : RoundUpheld cx I us pos (.again next t)
  | stop {xs : List Lexeme} {stop : Nat} {t : State} (reads : cx.source.Reaches pos xs stop)
      (holds : I (us ++ xs) t.progress) : RoundUpheld cx I us pos (.stop stop t)
  | fail {e : ParseError} {t : State} (holds : I us t.progress) :
      RoundUpheld cx I us pos (.fail e t)

theorem RoundUpheld.stay {pos : Nat} (h : I us t.progress) :
    RoundUpheld cx I us pos (.stop pos t) :=
  .stop (.refl _ _) (by rwa [List.append_nil])

/-- What every round holds on to, the repetition does. -/
theorem rounds_upholds (hI : Progress.Stable cx I)
    (h : ∀ us pos s, cx.source.Reaches 0 us pos → I us s.progress →
      RoundUpheld cx I us pos (round pos s)) :
    Upholds cx I (rounds cx.source.size round) := by
  intro us start s hus hs
  refine rounds_induction (motive := fun pos s out => ∀ us, cx.source.Reaches 0 us pos →
    I us s.progress → Upheld cx I us pos out) ?_ ?_ ?_ ?_ start s us hus hs
  · intro pos s stop s' hr us hus hs
    have hround := h us pos s hus hs
    rw [hr] at hround
    cases hround with
    | stop reads holds => exact .ok reads holds
  · intro pos s e s' hr us hus hs
    have hround := h us pos s hus hs
    rw [hr] at hround
    cases hround with
    | fail holds => exact .error holds
  · intro pos s next s' hr _ us hus hs
    have hround := h us pos s hus hs
    rw [hr] at hround
    cases hround with
    | again reads holds => exact .ok reads holds
  · intro pos s next s' hr _ _ ih us hus hs
    have hround := h us pos s hus hs
    rw [hr] at hround
    cases hround with
    | again reads holds => exact .after hI reads (ih _ (hus.trans reads) holds)

theorem many_upholds (hI : Progress.Stable cx I) (hp : Upholds cx I p) :
    Upholds cx I (many cx p) := by
  refine rounds_upholds hI fun us pos s hus hs => ?_
  have h := hp us pos s hus hs
  rw [manyRound]
  generalize p pos s = out at h
  cases h with
  | ok reads holds =>
      simp only
      split
      · exact .again reads holds
      · exact .stay (hI.back holds)
  | @error f after holds =>
      cases f with
      | fatal e => exact .fail holds
      | miss m => exact .stay holds

theorem separatedRound_upheld (hI : Progress.Stable cx I) (hp : Upholds cx I p)
    (separator : TokenKind) {pos : Nat} (hus : cx.source.Reaches 0 us pos)
    (hs : I us s.progress) : RoundUpheld cx I us pos (separatedRound cx p separator pos s) := by
  have h : Upheld cx I us pos (expect cx separator pos s) :=
    token_upholds hI separator _ us pos s hus hs
  rw [separatedRound]
  generalize expect cx separator pos s = out at h
  cases h with
  | @error f after holds =>
      cases f with
      | fatal e => exact .fail holds
      | miss m => exact .stay holds
  | @ok xs next t reads holds =>
      have h' := hp (us ++ xs) next t (hus.trans reads) holds
      simp only
      generalize p next t = out at h'
      cases h' with
      | ok reads' holds' =>
          rw [List.append_assoc] at holds'
          exact .again (reads.trans reads') holds'
      | @error f after holds' =>
          cases f with
          | fatal e => exact .fail (hI.back holds')
          | miss m => exact .stop reads holds'

theorem separated_upholds (hI : Progress.Stable cx I) (hp : Upholds cx I p)
    (separator : TokenKind) : Upholds cx I (separated cx p separator) := by
  intro us start s hus hs
  have h := hp us start s hus hs
  rw [separated]
  generalize p start s = out at h
  cases h with
  | @ok xs next t reads holds =>
      refine .after hI reads (rounds_upholds hI ?_ _ _ _ (hus.trans reads) holds)
      exact fun _ _ _ => separatedRound_upheld hI hp separator
  | @error f after holds =>
      cases f with
      | fatal e => exact .error holds
      | miss m => exact .stay holds

/-! ## Nodes -/

theorem child_upholds (hI : Progress.Stable cx I) (hp : Upholds cx I p) (attach : Node → Edit) :
    Upholds cx I (child cx p attach) := by
  intro us start s hus hs
  rcases Nat.lt_or_ge s.progress.depth cx.limits.maxDepth with hroom | hfull
  · have h := hp us start ⟨.blank, s.progress.deeper⟩ hus (hI.nest _ hs)
    rw [child_of_room hroom]
    generalize p start ⟨.blank, s.progress.deeper⟩ = out at h
    cases h with
    | ok reads holds => exact .settle hI reads (hI.nest _ holds)
    | error holds => exact .error (hI.nest _ holds)
  · rw [child_of_full hfull]
    exact .error hs

theorem andEdit_upholds (hI : Progress.Stable cx I) (hp : Upholds cx I p)
    (edit : Draft → Edit) : Upholds cx I (andEdit p edit) := by
  intro us start s hus hs
  have h := hp us start s hus hs
  rw [andEdit]
  generalize p start s = out at h
  cases h with
  | ok reads holds => exact .settle hI reads holds
  | error holds => exact .error holds

end Matcher

/-! ## Patterns and the grammar -/

open Matcher in
/-- Every pattern holds on to what is stable, if what it refers to does. -/
theorem Pattern.run_upholds {ν : Type} {env : ν → Matcher} (hI : Progress.Stable cx I)
    (henv : ∀ n, Upholds cx I (env n)) (p : Pattern ν) : Upholds cx I (p.run cx env) := by
  induction p with
  | token kind note => exact token_upholds hI kind note
  | endOfInput => exact endOfInput_upholds hI
  | done => exact done_upholds
  | never => exact never_upholds
  | andThen p q ihp ihq => exact andThen_upholds hI ihp ihq
  | orElse p q ihp ihq => exact orElse_upholds ihp ihq
  | optional p ih => exact optional_upholds ih
  | many p ih => exact many_upholds hI ih
  | separated item separator ih => exact separated_upholds hI ih separator
  | ahead p ih => exact ahead_upholds hI ih
  | child p attach ih => exact child_upholds hI ih attach
  | andEdit p edit ih => exact andEdit_upholds hI ih edit
  | ref name => exact henv name

theorem Grammar.valueWithin_upholds (hI : Progress.Stable cx I) (levels : Nat) :
    Matcher.Upholds cx I (valueWithin cx levels) := by
  induction levels with
  | zero => exact fun _ _ _ _ hs => .error hs
  | succ levels ih => exact Pattern.run_upholds hI (fun _ => ih) _

theorem Goal.matcher_upholds (hI : Progress.Stable cx I) (goal : Goal) :
    Matcher.Upholds cx I (goal.matcher cx) := by
  have henv (n : Nonterminal) : Matcher.Upholds cx I (Grammar.meaning cx n) :=
    Grammar.valueWithin_upholds hI _
  cases goal with
  | module => exact Pattern.run_upholds hI henv _
  | value => exact Pattern.run_upholds hI henv _

namespace Parse

variable {goal : Goal}

/-- What a parse holds on to holds behind all tokens of a source that it reads. -/
theorem holds_of_ok (hI : Progress.Stable cx I) (h₀ : I [] .none) {found : Node × Nat}
    {p : Progress} (h : outcome goal cx = .ok found p) :
    ∃ xs, cx.source.Reads 0 xs ∧ I xs p := by
  obtain ⟨stop, t, hrun, -, rfl⟩ := run_of_outcome_ok h
  have hup := goal.matcher_upholds hI [] 0 ⟨.blank, Progress.none.deeper⟩ (.refl _ 0)
    (hI.nest _ h₀)
  rw [hrun] at hup
  cases hup with
  | ok reads holds =>
      obtain ⟨o, hpath, ho⟩ := reads
      have hspent := goal.matcher_exhausts cx _ _ _ _ hrun
      exact ⟨_, ⟨o, hpath, by simpa [Source.isSpent, ho] using hspent⟩, hI.nest _ holds⟩

theorem holds_of_miss (hI : Progress.Stable cx I) (h₀ : I [] .none) {m : Miss} {p : Progress}
    (h : outcome goal cx = .error (.miss m) p) : I [] p := by
  obtain ⟨t, hrun, rfl⟩ := run_of_outcome_miss h
  have hup := goal.matcher_upholds hI [] 0 ⟨.blank, Progress.none.deeper⟩ (.refl _ 0)
    (hI.nest _ h₀)
  rw [hrun] at hup
  cases hup with
  | error holds => exact hI.nest _ holds

end Parse

end WeLang
