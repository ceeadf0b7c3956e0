import WeLang.Proofs.Reading

/-!
# Limits cut a parse short and do nothing else

`Progress` never records the limits, and they are looked at in two places only: after
an attempt at a token was counted, and before a value goes one level further in. What
comes of it if there is room does not depend on how much room there is. So two parses
of the same source, one under tight limits and one under looser ones, go through the
same states, until the tight one is broken off for good or both are at their end
(`CutShort`).

That nobody catches an error is half of the argument. The other half is about the
attempts. A parse that is broken off because it has made too many of them has made no
more than the other one will have made in the end, and one that is not broken off has
not made too many. So the attempts of the unlimited parse tell which bounds are hit:
`parse_of_limits_le`.
-/

namespace WeLang

/-- Limits that leave room wherever others do. -/
instance : LE Limits :=
  ⟨fun l l' => l.maxDepth ≤ l'.maxDepth ∧ ∀ m' ∈ l'.maxSteps, ∃ m ∈ l.maxSteps, m ≤ m'⟩

theorem Limits.exceeded?_eq_none {l : Limits} {n : Nat} :
    l.exceeded? n = none ↔ ∀ m ∈ l.maxSteps, n ≤ m := by
  rw [Limits.exceeded?, Option.filter_eq_none_iff]
  exact forall₂_congr fun m _ => by rw [decide_eq_true_iff, Nat.not_lt]

theorem Limits.exceeded?_mono {l l' : Limits} (hle : l ≤ l') {n : Nat}
    (h : l.exceeded? n = none) : l'.exceeded? n = none := by
  rw [Limits.exceeded?_eq_none] at h ⊢
  intro m' hm'
  obtain ⟨m, hm, hmm⟩ := hle.2 m' hm'
  exact Nat.le_trans (h m hm) hmm

variable {l l' : Limits} {src : Source} {s t : State} {o : Nat}
  {E : ParseError.Cause → Prop}

theorem Limits.exceeded?_eq_some {l : Limits} {n limit : Nat} :
    l.exceeded? n = some limit ↔ limit ∈ l.maxSteps ∧ limit < n := by
  rw [Limits.exceeded?, Option.filter_eq_some_iff, decide_eq_true_iff, Option.mem_def]

/-! ## Attempts are only added -/

/-- A matcher that forgets no attempt. -/
def Matcher.Counts (p : Matcher) : Prop :=
  ∀ o s, s.progress.attempts ≤ (p o s).progress.attempts

theorem Matcher.Lawful.counts {cx : Context} {p : Matcher}
    (h : Matcher.Lawful cx E p) : p.Counts := by
  intro o s
  have hkept := h o s
  generalize p o s = out at hkept
  cases hkept with
  | ok _ _ later => exact later.attempts
  | miss _ _ _ _ later => exact later.attempts
  | fatal _ later => exact later.attempts

namespace Matcher

variable {p q : Matcher}

theorem le_andThen (hq : Counts q) (o : Nat) (s : State) :
    (p o s).progress.attempts ≤ (andThen p q o s).progress.attempts := by
  rw [andThen]
  cases p o s with
  | error f t => exact Nat.le_refl _
  | ok next t =>
      have := hq next t
      simp only
      cases hrun : q next t <;> rw [hrun] at this <;> exact this

theorem le_orElse (hq : Counts q) (o : Nat) (s : State) :
    (p o s).progress.attempts ≤ (orElse p q o s).progress.attempts := by
  rw [orElse]
  cases p o s with
  | ok stop t => exact Nat.le_refl _
  | error f t =>
      cases f with
      | fatal e => exact Nat.le_refl _
      | miss m =>
          have : t.progress.attempts ≤ _ := hq o (t.restore s.draft.mark)
          simp only
          cases hrun : q o (t.restore s.draft.mark) with
          | ok stop u => rw [hrun] at this; exact this
          | error f u => rw [hrun] at this; cases f <;> exact this

/-- The progress after a round. -/
def Round.progress : Round → Progress
  | .again _ t | .stop _ t | .fail _ t => t.progress

theorem le_rounds {size : Nat} {round : Nat → State → Round}
    (h : ∀ pos s, s.progress.attempts ≤ (round pos s).progress.attempts) (pos : Nat) (s : State) :
    (round pos s).progress.attempts ≤ (rounds size round pos s).progress.attempts := by
  refine rounds_induction
    (motive := fun pos s out => (round pos s).progress.attempts ≤ out.progress.attempts)
    ?_ ?_ ?_ ?_ pos s
  · intro pos s stop s' hr
    rw [hr]
    exact Nat.le_refl _
  · intro pos s e s' hr
    rw [hr]
    exact Nat.le_refl _
  · intro pos s next s' hr _
    rw [hr]
    exact Nat.le_refl _
  · intro pos s next s' hr _ _ ih
    rw [hr]
    exact Nat.le_trans (h next s') ih

end Matcher

/-! ## Two runs of one matcher -/

/-- How a run under tight limits ends, and one under looser limits. Either they end
alike, and so many attempts are allowed by either; or the first was broken off for
too many attempts, of which the second has made no fewer; or for nesting that only
the second allows. -/
inductive CutShort (l l' : Limits) : Step → Step → Prop
  | same {out : Step} (afforded : l.exceeded? out.progress.steps = none) : CutShort l l' out out
  | steps {e : ParseError} {limit : Nat} {t : State} {out : Step}
      (cause : e.cause = .stepLimitExceeded limit)
      (spent : l.exceeded? t.progress.steps = some limit)
      (reached : t.progress.attempts ≤ out.progress.attempts) :
      CutShort l l' (.error (.fatal e) t) out
  | depth {e : ParseError} {t : State} {out : Step}
      (cause : e.cause = .nestingTooDeep l.maxDepth) (deeper : l.maxDepth < l'.maxDepth) :
      CutShort l l' (.error (.fatal e) t) out

/-- Matchers of which the first only ever differs from the second by being cut short. -/
def Matcher.CutBy (l l' : Limits) (p p' : Matcher) : Prop :=
  ∀ o s, l.exceeded? s.progress.steps = none → CutShort l l' (p o s) (p' o s)

namespace Matcher

variable {p p' q q' : Matcher} {cx cx' : Context}

theorem settle_cut {edit : Edit} {stop : Nat} (h : l.exceeded? s.progress.steps = none) :
    CutShort l l' (s.settle edit stop) (s.settle edit stop) :=
  .same (by rwa [Step.progress_settle])

/-! ## Tokens and the end -/

@[simp] theorem steps_noteCollision (p : Progress) (cx : Context) (k : TokenKind) (span : Span) :
    (p.noteCollision cx k span).steps = p.steps := by
  rw [Progress.noteCollision]
  split
  · rfl
  · split <;> rfl

/-- Whether a step is left is asked before anything else, and never again. -/
theorem token_cut (hle : l ≤ l') (k : TokenKind) (note : Lexeme → Edit) :
    CutBy l l' (token ⟨src, l⟩ k note) (token ⟨src, l'⟩ k note) := by
  intro o s _
  cases hstep : l.exceeded? s.progress.spend.steps with
  | some limit =>
      have hcut : token ⟨src, l⟩ k note o s =
          .error (.fatal { cause := .stepLimitExceeded limit, span := .point (min o src.size) })
            { s with progress := s.progress.spend } := by
        simp only [token, Context.lex, hstep]
      rw [hcut]
      refine .steps rfl hstep ?_
      have hlex := Context.lexed ⟨src, l'⟩ k o s.progress
      rw [token]
      generalize Context.lex ⟨src, l'⟩ k o s.progress = out at hlex
      cases hlex with
      | found here hk =>
          rw [Step.progress_settle]
          exact (Progress.Later.noteCollision s.progress.spend _ _ _).attempts
      | missing _ => exact Nat.le_refl _
      | unclosed _ _ => exact Nat.le_refl _
      | exhausted _ => exact Nat.le_refl _
  | none =>
      have hstep' := Limits.exceeded?_mono hle hstep
      have hsame : token ⟨src, l⟩ k note o s = token ⟨src, l'⟩ k note o s := by
        simp only [token, Context.lex, hstep, hstep']
        rfl
      rw [← hsame]
      refine .same ?_
      have hlex := Context.lexed ⟨src, l⟩ k o s.progress
      rw [token]
      generalize Context.lex ⟨src, l⟩ k o s.progress = out at hlex
      cases hlex with
      | found here hk =>
          rw [Step.progress_settle]
          rwa [steps_noteCollision]
      | missing _ => exact hstep
      | unclosed _ _ => exact hstep
      | exhausted _ => exact hstep

theorem endOfInput_cut : CutBy l l' (endOfInput ⟨src, l⟩) (endOfInput ⟨src, l'⟩) := by
  intro o s hs
  rw [endOfInput_eq, endOfInput_eq]
  refine .same ?_
  split <;> exact hs

/-! ## Sequence and choice -/

theorem andThen_cut (hp : CutBy l l' p p') (hq : CutBy l l' q q') (hcount : Counts q') :
    CutBy l l' (andThen p q) (andThen p' q') := by
  intro o s hs
  have h := hp o s hs
  have hle := le_andThen (p := p') hcount o s
  rw [andThen] at hle
  rw [andThen, andThen]
  generalize p o s = out at h
  generalize p' o s = out' at h hle
  cases h with
  | steps cause spent reached => exact .steps cause spent (Nat.le_trans reached hle)
  | depth cause deeper => exact .depth cause deeper
  | same afforded =>
      cases out with
      | error f t => exact .same afforded
      | ok next t =>
          have h' := hq next t afforded
          simp only
          generalize q next t = out at h'
          generalize q' next t = out' at h'
          cases h' with
          | same afforded => cases out <;> exact .same afforded
          | depth cause deeper => exact .depth cause deeper
          | steps cause spent reached =>
              refine .steps cause spent (Nat.le_trans reached ?_)
              cases out' <;> exact Nat.le_refl _

/-- The second of a choice is tried from what the first has left, misses included, so it
is tried in both runs or in neither. -/
theorem orElse_cut (hp : CutBy l l' p p') (hq : CutBy l l' q q') (hcount : Counts q') :
    CutBy l l' (orElse p q) (orElse p' q') := by
  intro o s hs
  have h := hp o s hs
  have hle := le_orElse (p := p') hcount o s
  rw [orElse] at hle
  rw [orElse, orElse]
  generalize p o s = out at h
  generalize p' o s = out' at h hle
  cases h with
  | steps cause spent reached => exact .steps cause spent (Nat.le_trans reached hle)
  | depth cause deeper => exact .depth cause deeper
  | same afforded =>
      cases out with
      | ok stop t => exact .same afforded
      | error f t =>
          cases f with
          | fatal e => exact .same afforded
          | miss m =>
              have h' := hq o (t.restore s.draft.mark) afforded
              simp only
              generalize q o (t.restore s.draft.mark) = out at h'
              generalize q' o (t.restore s.draft.mark) = out' at h'
              cases h' with
              | depth cause deeper => exact .depth cause deeper
              | same afforded =>
                  cases out with
                  | ok stop t => exact .same afforded
                  | error f t => cases f <;> exact .same afforded
              | steps cause spent reached =>
                  refine .steps cause spent (Nat.le_trans reached ?_)
                  cases out' with
                  | ok stop t => exact Nat.le_refl _
                  | error f t => cases f <;> exact Nat.le_refl _

theorem optional_cut (hp : CutBy l l' p p') : CutBy l l' (optional p) (optional p') := by
  intro o s hs
  have h := hp o s hs
  rw [optional, optional]
  generalize p o s = out at h
  generalize p' o s = out' at h
  cases h with
  | same afforded => split <;> exact .same afforded
  | depth cause deeper => exact .depth cause deeper
  | steps cause spent reached =>
      refine .steps cause spent (Nat.le_trans reached ?_)
      split <;> exact Nat.le_refl _

theorem ahead_cut (hp : CutBy l l' p p') : CutBy l l' (ahead p) (ahead p') := by
  intro o s hs
  have h := hp o s hs
  rw [ahead, ahead]
  generalize p o s = out at h
  generalize p' o s = out' at h
  cases h with
  | same afforded => split <;> exact .same afforded
  | depth cause deeper => exact .depth cause deeper
  | steps cause spent reached =>
      refine .steps cause spent (Nat.le_trans reached ?_)
      split <;> exact Nat.le_refl _

/-! ## Repetitions -/

/-- How a round under tight limits ends, and one under looser limits. -/
inductive RoundCut (l l' : Limits) : Round → Round → Prop
  | same {r : Round} (afforded : l.exceeded? r.progress.steps = none) : RoundCut l l' r r
  | steps {e : ParseError} {limit : Nat} {t : State} {r : Round}
      (cause : e.cause = .stepLimitExceeded limit)
      (spent : l.exceeded? t.progress.steps = some limit)
      (reached : t.progress.attempts ≤ r.progress.attempts) : RoundCut l l' (.fail e t) r
  | depth {e : ParseError} {t : State} {r : Round}
      (cause : e.cause = .nestingTooDeep l.maxDepth) (deeper : l.maxDepth < l'.maxDepth) :
      RoundCut l l' (.fail e t) r

theorem rounds_cut {size : Nat} {round round' : Nat → State → Round}
    (h : ∀ pos s, l.exceeded? s.progress.steps = none → RoundCut l l' (round pos s) (round' pos s))
    (hcount : ∀ pos s, s.progress.attempts ≤ (round' pos s).progress.attempts) :
    CutBy l l' (rounds size round) (rounds size round') := by
  intro pos s
  refine rounds_induction (motive := fun pos s out =>
    l.exceeded? s.progress.steps = none → CutShort l l' out (rounds size round' pos s))
    ?_ ?_ ?_ ?_ pos s
  · intro pos s stop t hr hs
    have hround := h pos s hs
    rw [hr] at hround
    generalize hr' : round' pos s = r at hround
    cases hround with
    | same afforded =>
        rw [rounds, hr']
        exact .same afforded
  · intro pos s e t hr hs
    have hround := h pos s hs
    have hle : _ ≤ (rounds size round' pos s).progress.attempts := le_rounds hcount pos s
    rw [hr] at hround
    generalize hr' : round' pos s = r at hround hle
    cases hround with
    | steps cause spent reached => exact .steps cause spent (Nat.le_trans reached hle)
    | depth cause deeper => exact .depth cause deeper
    | same afforded =>
        rw [rounds, hr']
        exact .same afforded
  · intro pos s next t hr hlast hs
    have hround := h pos s hs
    rw [hr] at hround
    generalize hr' : round' pos s = r at hround
    cases hround with
    | same afforded =>
        rw [rounds, hr']
        simp only [hlast, if_false]
        exact .same afforded
  · intro pos s next t hr hlt hsize ih hs
    have hround := h pos s hs
    rw [hr] at hround
    generalize hr' : round' pos s = r at hround
    cases hround with
    | same afforded =>
        rw [rounds.eq_def size round' pos, hr']
        simp only [hlt, hsize, and_self, if_true]
        exact ih afforded

theorem le_manyRound (hcount : Counts p) (pos : Nat) (s : State) :
    s.progress.attempts ≤ (manyRound p pos s).progress.attempts := by
  have h := hcount pos s
  rw [manyRound]
  cases hrun : p pos s with
  | ok next t =>
      rw [hrun] at h
      simp only
      split <;> exact h
  | error f t =>
      rw [hrun] at h
      cases f <;> exact h

theorem manyRound_cut (hp : CutBy l l' p p') (pos : Nat) (s : State)
    (hs : l.exceeded? s.progress.steps = none) :
    RoundCut l l' (manyRound p pos s) (manyRound p' pos s) := by
  have h := hp pos s hs
  rw [manyRound, manyRound]
  generalize p pos s = out at h
  generalize p' pos s = out' at h
  cases h with
  | depth cause deeper => exact .depth cause deeper
  | same afforded =>
      cases out with
      | ok next t =>
          simp only
          split <;> exact .same afforded
      | error f t => cases f <;> exact .same afforded
  | steps cause spent reached =>
      refine .steps cause spent (Nat.le_trans reached ?_)
      cases out' with
      | ok next t =>
          simp only
          split <;> exact Nat.le_refl _
      | error f t => cases f <;> exact Nat.le_refl _

theorem many_cut (hp : CutBy l l' p p') (hcount : Counts p') :
    CutBy l l' (many ⟨src, l⟩ p) (many ⟨src, l'⟩ p') :=
  rounds_cut (manyRound_cut hp) (le_manyRound hcount)

/-- The progress after a separator and an item, if there was a separator. -/
theorem le_separatedRound (hcount : Counts p) (separator : TokenKind) (pos : Nat) (s : State) :
    (token cx separator (fun _ => pure ()) pos s).progress.attempts ≤
      (separatedRound cx p separator pos s).progress.attempts := by
  rw [separatedRound, expect]
  cases token cx separator (fun _ => pure ()) pos s with
  | error f t => cases f <;> exact Nat.le_refl _
  | ok next t =>
      have h := hcount next t
      simp only
      cases hrun : p next t with
      | ok stop u =>
          rw [hrun] at h
          exact h
      | error f u =>
          rw [hrun] at h
          cases f <;> exact h

theorem separatedRound_cut (hle : l ≤ l') (hp : CutBy l l' p p') (hcount : Counts p')
    (separator : TokenKind) (pos : Nat) (s : State) (hs : l.exceeded? s.progress.steps = none) :
    RoundCut l l' (separatedRound ⟨src, l⟩ p separator pos s)
      (separatedRound ⟨src, l'⟩ p' separator pos s) := by
  have h : CutShort l l' (token ⟨src, l⟩ separator (fun _ => pure ()) pos s) _ :=
    token_cut hle separator _ pos s hs
  have hmore : _ ≤ (separatedRound ⟨src, l'⟩ p' separator pos s).progress.attempts :=
    le_separatedRound hcount separator pos s
  rw [separatedRound, expect] at hmore
  rw [separatedRound, separatedRound, expect, expect]
  generalize token ⟨src, l⟩ separator (fun _ => pure ()) pos s = out at h
  generalize token ⟨src, l'⟩ separator (fun _ => pure ()) pos s = out' at h hmore
  cases h with
  | depth cause deeper => exact .depth cause deeper
  | steps cause spent reached => exact .steps cause spent (Nat.le_trans reached hmore)
  | same afforded =>
      cases out with
      | error f t => cases f <;> exact .same afforded
      | ok next t =>
          have h' := hp next t afforded
          simp only
          generalize p next t = out at h'
          generalize p' next t = out' at h'
          cases h' with
          | depth cause deeper => exact .depth cause deeper
          | same afforded =>
              cases out with
              | ok stop u => exact .same afforded
              | error f u => cases f <;> exact .same afforded
          | steps cause spent reached =>
              refine .steps cause spent (Nat.le_trans reached ?_)
              cases out' with
              | ok stop u => exact Nat.le_refl _
              | error f u => cases f <;> exact Nat.le_refl _

theorem separated_cut (hle : l ≤ l') (hp : CutBy l l' p p') (hcount : Counts p')
    (separator : TokenKind) :
    CutBy l l' (separated ⟨src, l⟩ p separator) (separated ⟨src, l'⟩ p' separator) := by
  have hround (pos : Nat) (s : State) : s.progress.attempts ≤
      (separatedRound ⟨src, l'⟩ p' separator pos s).progress.attempts :=
    Nat.le_trans ((token_lawful (refusals_fatal _) (fun _ => .pure)).counts pos s)
      (le_separatedRound hcount separator pos s)
  have hrounds : CutBy l l' (rounds src.size (separatedRound ⟨src, l⟩ p separator)) _ :=
    rounds_cut (separatedRound_cut hle hp hcount separator) hround
  intro o s hs
  have h := hp o s hs
  rw [separated, separated]
  generalize p o s = out at h
  generalize p' o s = out' at h
  cases h with
  | depth cause deeper => exact .depth cause deeper
  | same afforded =>
      cases out with
      | ok next t => exact hrounds next t afforded
      | error f t => cases f <;> exact .same afforded
  | steps cause spent reached =>
      refine .steps cause spent (Nat.le_trans reached ?_)
      cases out' with
      | ok next t => exact Nat.le_trans (hround next t) (le_rounds hround next t)
      | error f t => cases f <;> exact Nat.le_refl _

/-! ## Nodes -/

theorem child_cut (hle : l ≤ l') (hp : CutBy l l' p p') (attach : Node → Edit) :
    CutBy l l' (child ⟨src, l⟩ p attach) (child ⟨src, l'⟩ p' attach) := by
  intro o s hs
  rcases Nat.lt_or_ge s.progress.depth l.maxDepth with hroom | hfull
  · have hroom' : s.progress.depth < l'.maxDepth := Nat.lt_of_lt_of_le hroom hle.1
    have h := hp o ⟨.blank, s.progress.deeper⟩ hs
    rw [child_of_room hroom, child_of_room hroom']
    generalize p o ⟨.blank, s.progress.deeper⟩ = out at h
    generalize p' o ⟨.blank, s.progress.deeper⟩ = out' at h
    cases h with
    | depth cause deeper => exact .depth cause deeper
    | same afforded =>
        cases out with
        | ok stop t => exact settle_cut afforded
        | error f t => exact .same afforded
    | steps cause spent reached =>
        refine .steps cause spent (Nat.le_trans reached ?_)
        cases out' with
        | ok stop t =>
            simp only [Step.progress_settle]
            exact Nat.le_refl _
        | error f t => exact Nat.le_refl _
  · rw [child_of_full hfull]
    rcases Nat.lt_or_eq_of_le hle.1 with hdeeper | heq
    · exact .depth rfl hdeeper
    · rw [child_of_full (show l'.maxDepth ≤ s.progress.depth by omega)]
      simp only [Context.tooDeep, heq]
      exact .same hs

theorem andEdit_cut (hp : CutBy l l' p p') (edit : Draft → Edit) :
    CutBy l l' (andEdit p edit) (andEdit p' edit) := by
  intro o s hs
  have h := hp o s hs
  rw [andEdit, andEdit]
  generalize p o s = out at h
  generalize p' o s = out' at h
  cases h with
  | depth cause deeper => exact .depth cause deeper
  | same afforded =>
      cases out with
      | ok stop t => exact settle_cut afforded
      | error f t => exact .same afforded
  | steps cause spent reached =>
      refine .steps cause spent (Nat.le_trans reached ?_)
      cases out' with
      | ok stop t =>
          simp only [Step.progress_settle]
          exact Nat.le_refl _
      | error f t => exact Nat.le_refl _

end Matcher

/-! ## Patterns and the grammar -/

open Matcher in
/-- The matchers of a pattern under two limits differ only by being cut short, if those
of what it refers to do. -/
theorem Pattern.run_cut {ν : Type} (hle : l ≤ l') {env env' : ν → Matcher}
    (henv : ∀ n, CutBy l l' (env n) (env' n))
    (hlaw : ∀ n, Lawful ⟨src, l'⟩ (·.isFatal = true) (env' n)) {p : Pattern ν}
    (h : p.Honest (·.isFatal = true)) :
    CutBy l l' (p.run ⟨src, l⟩ env) (p.run ⟨src, l'⟩ env') := by
  have hcount {p : Pattern ν} (h : p.Honest (·.isFatal = true)) :
      Counts (p.run ⟨src, l'⟩ env') :=
    (Pattern.run_lawful (refusals_fatal _) hlaw h).counts
  induction p with
  | token kind note => exact token_cut hle kind note
  | endOfInput => exact endOfInput_cut
  | done => exact fun _ _ hs => .same hs
  | never => exact h.elim
  | andThen p q ihp ihq => exact andThen_cut (ihp h.1) (ihq h.2) (hcount h.2)
  | orElse p q ihp ihq =>
      rcases h.2 with hq | rfl
      · exact orElse_cut (ihp h.1) (ihq hq) (hcount hq)
      · exact orElse_cut (ihp h.1) (fun _ _ hs => .same hs) fun _ _ => Nat.le_refl _
  | optional p ih => exact optional_cut (ih h)
  | many p ih => exact many_cut (ih h) (hcount h)
  | separated item separator ih => exact separated_cut hle (ih h) (hcount h) separator
  | ahead p ih => exact ahead_cut (ih h)
  | child p attach ih => exact child_cut hle (ih h.1) attach
  | andEdit p edit ih => exact andEdit_cut (ih h.1) edit
  | ref name => exact henv name

/-- A value with as many levels more as the looser limits allow. Where the levels of the
tight run are used up, so are those of the other, unless the limits tell them apart. -/
theorem Grammar.valueWithin_cut (hle : l ≤ l') (src : Source) (levels : Nat) :
    Matcher.CutBy l l' (valueWithin ⟨src, l⟩ levels)
      (valueWithin ⟨src, l'⟩ (levels + (l'.maxDepth - l.maxDepth))) := by
  induction levels with
  | zero =>
      intro o s hs
      rcases Nat.lt_or_eq_of_le hle.1 with hdeeper | heq
      · exact .depth rfl hdeeper
      · have : CutShort l l' (valueWithin ⟨src, l⟩ 0 o s) (valueWithin ⟨src, l'⟩ 0 o s) := by
          simp only [valueWithin, Context.tooDeep, heq]
          exact .same hs
        simpa [heq] using this
  | succ levels ih =>
      rw [Nat.succ_add]
      exact Pattern.run_cut hle (fun _ => ih) (fun _ => valueWithin_lawful _ _)
        (value_honest ref_honest)

theorem Goal.matcher_cut (hle : l ≤ l') (goal : Goal) (src : Source) :
    Matcher.CutBy l l' (goal.matcher ⟨src, l⟩) (goal.matcher ⟨src, l'⟩) := by
  have henv (n : Nonterminal) :
      Matcher.CutBy l l' (Grammar.meaning ⟨src, l⟩ n) (Grammar.meaning ⟨src, l'⟩ n) := by
    have h := Grammar.valueWithin_cut hle src (l.maxDepth + 1)
    have hlevels : l.maxDepth + 1 + (l'.maxDepth - l.maxDepth) = l'.maxDepth + 1 := by
      have := hle.1
      omega
    rwa [hlevels] at h
  have hlaw (n : Nonterminal) :
      Matcher.Lawful ⟨src, l'⟩ (·.isFatal = true) (Grammar.meaning ⟨src, l'⟩ n) :=
    Grammar.valueWithin_lawful _ _
  cases goal with
  | module => exact Pattern.run_cut hle henv hlaw (Grammar.module_honest trivial)
  | value => exact Pattern.run_cut hle henv hlaw (Grammar.soleValue_honest trivial)

/-! ## Whole parses -/

namespace Parse

/-- How many steps a parse has spent when it is over. -/
def steps (goal : Goal) (cx : Context) : Nat :=
  match outcome goal cx with
  | .ok _ p | .error _ p => p.steps

theorem steps_of_room {goal : Goal} {cx : Context} (h : 0 < cx.limits.maxDepth) :
    steps goal cx = (goal.matcher cx 0 ⟨.blank, Progress.none.deeper⟩).progress.steps := by
  rw [steps, outcome_of_room h]
  cases goal.matcher cx 0 ⟨.blank, Progress.none.deeper⟩ <;> rfl

/-- A parse under tight limits ends as under looser ones and has not spent too much, or is
broken off for what it has spent and not even the other could do with less, or for
nesting. -/
theorem outcome_cut (hle : l ≤ l') (goal : Goal) (src : Source) :
    (outcome goal ⟨src, l⟩ = outcome goal ⟨src, l'⟩ ∧
      l.exceeded? (steps goal ⟨src, l'⟩) = none) ∨
    (∃ e p limit, outcome goal ⟨src, l⟩ = .error (.fatal e) p ∧
      e.cause = .stepLimitExceeded limit ∧ limit ∈ l.maxSteps ∧
        limit < steps goal ⟨src, l'⟩) ∨
    ∃ e p, outcome goal ⟨src, l⟩ = .error (.fatal e) p ∧ e.cause = .nestingTooDeep l.maxDepth ∧
      l.maxDepth < l'.maxDepth := by
  have hfresh : l.exceeded? Progress.none.deeper.steps = none :=
    Limits.exceeded?_eq_none.2 fun m _ => Nat.zero_le m
  rcases Nat.eq_zero_or_pos l.maxDepth with hfull | hroom
  · have hout : outcome goal ⟨src, l⟩ = _ := outcome_of_full hfull
    rcases Nat.lt_or_eq_of_le hle.1 with hdeeper | heq
    · exact .inr (.inr ⟨_, _, hout, rfl, hdeeper⟩)
    · have hout' : outcome goal ⟨src, l'⟩ = _ := outcome_of_full (heq ▸ hfull)
      refine .inl ⟨?_, ?_⟩
      · simp only [hout, hout', Context.tooDeep, heq]
      · rw [steps, hout']
        exact hfresh
  · have hroom' : 0 < l'.maxDepth := Nat.lt_of_lt_of_le hroom hle.1
    have h := goal.matcher_cut hle src 0 ⟨.blank, Progress.none.deeper⟩ hfresh
    have hout : outcome goal ⟨src, l⟩ = _ := outcome_of_room hroom
    have hout' : outcome goal ⟨src, l'⟩ = _ := outcome_of_room hroom'
    have hsteps : steps goal ⟨src, l'⟩ = _ := steps_of_room hroom'
    rw [hout, hout', hsteps]
    generalize goal.matcher ⟨src, l⟩ 0 ⟨.blank, Progress.none.deeper⟩ = out at h
    generalize goal.matcher ⟨src, l'⟩ 0 ⟨.blank, Progress.none.deeper⟩ = out' at h
    cases h with
    | same afforded => exact .inl ⟨rfl, afforded⟩
    | depth cause deeper => exact .inr (.inr ⟨_, _, rfl, cause, deeper⟩)
    | steps cause spent reached =>
        obtain ⟨hlimit, hlt⟩ := Limits.exceeded?_eq_some.1 spent
        refine .inr (.inl ⟨_, _, _, rfl, cause, hlimit, ?_⟩)
        simp only [Progress.steps] at hlt ⊢
        omega

theorem errorAt_cause (hE : E .unterminatedLiteral) (s : Source) (m : Miss) :
    E (errorAt s m).cause ∨ (errorAt s m).cause.isFatal = false := by
  rw [errorAt]
  split
  · exact .inl hE
  · exact .inr rfl
  · exact .inr rfl
  · exact .inr rfl

end Parse

theorem parse_of_fatal {goal : Goal} {e : ParseError} {p : Progress}
    (h : Parse.outcome goal ⟨src, l⟩ = .error (.fatal e) p) :
    parse goal src l = .error (e.locate src) :=
  parse_eq_error.2 ⟨_, p, h, rfl⟩

/-- A parse fails for a cause for which something may be refused, or for one that breaks
nothing off. -/
theorem cause_of_parse [ContentRefusals E] (hE : Refusals ⟨src, l⟩ E) {goal : Goal}
    {e : ParseError} (h : parse goal src l = .error e) :
    E e.cause ∨ e.cause.isFatal = false := by
  obtain ⟨f, p, hout, rfl⟩ := parse_eq_error.1 h
  cases f with
  | fatal e => exact .inl (Parse.cause_of_outcome (e := e) hE hout)
  | miss m =>
      obtain ⟨f, _, hf⟩ := Parse.errorOf_miss hout
      simp only at hf
      rw [hf]
      exact Parse.errorAt_cause hE.literal src f

/-- Without a bound on the steps no parse is broken off for too many. -/
theorem cause_ne_stepLimit {goal : Goal} {e : ParseError} (hl : l.maxSteps = none)
    (h : parse goal src l = .error e) (limit : Nat) : e.cause ≠ .stepLimitExceeded limit := by
  have : ContentRefusals (· ≠ .stepLimitExceeded limit) := by
    constructor <;> simp
  have hE : Refusals ⟨src, l⟩ (· ≠ .stepLimitExceeded limit) := by
    constructor <;> simp [hl]
  rcases cause_of_parse hE h with h | h
  · exact h
  · intro hcause
    rw [hcause] at h
    cases h

/-- A bound on the steps breaks a parse off just where the parse without the bound spends
more. -/
theorem parse_stepLimit_iff (goal : Goal) (s : Source) (depth m : Nat) :
    (∃ e limit, parse goal s ⟨some m, depth⟩ = .error e ∧
      e.cause = .stepLimitExceeded limit) ↔ m < Parse.steps goal ⟨s, ⟨none, depth⟩⟩ := by
  have hle : (⟨some m, depth⟩ : Limits) ≤ ⟨none, depth⟩ :=
    ⟨Nat.le_refl _, fun _ hm => nomatch hm⟩
  rcases Parse.outcome_cut hle goal s with ⟨heq, hspent⟩ |
    ⟨e, p, limit, hout, hcause, hlimit, hlt⟩ | ⟨_, _, _, _, hdeeper⟩
  · have hm := Limits.exceeded?_eq_none.1 hspent m rfl
    constructor
    · intro hcut
      obtain ⟨e, limit, hparse, hcause⟩ := hcut
      rw [parse, heq] at hparse
      exact absurd hcause (cause_ne_stepLimit rfl hparse limit)
    · intro hlt
      omega
  · obtain rfl : m = limit := Option.some.inj hlimit
    exact ⟨fun _ => hlt, fun _ => ⟨_, _, parse_of_fatal hout, hcause⟩⟩
  · exact absurd hdeeper (Nat.lt_irrefl _)

/-- Limits cut a parse short and do nothing else. A parse that is not broken off for them
ends in the same way under all limits that leave more room; and it is broken off for a
bound on the steps just where the parse without the bound spends more. -/
theorem parse_of_limits_le (goal : Goal) (s : Source) :
    (∀ l l' : Limits, l ≤ l' →
      (∀ e limit, parse goal s l = .error e →
        e.cause ≠ .stepLimitExceeded limit ∧ e.cause ≠ .nestingTooDeep limit) →
      parse goal s l' = parse goal s l) ∧
    ∀ depth m : Nat,
      (∃ e limit, parse goal s ⟨some m, depth⟩ = .error e ∧
        e.cause = .stepLimitExceeded limit) ↔ m < Parse.steps goal ⟨s, ⟨none, depth⟩⟩ := by
  refine ⟨fun l l' hle h => ?_, parse_stepLimit_iff goal s⟩
  rcases Parse.outcome_cut hle goal s with ⟨heq, _⟩ | ⟨e, p, limit, hout, hcause, _⟩ |
    ⟨e, p, hout, hcause, _⟩
  · rw [parse, parse, heq]
  · exact absurd hcause (h _ limit (parse_of_fatal hout)).1
  · exact absurd hcause (h _ l.maxDepth (parse_of_fatal hout)).2

/-- A list of one value costs thirteen steps and two levels of nesting, one for the list
and one for what is in it. -/
theorem parse_of_limits_le_list :
    (⟨some 13, 2⟩ : Limits) ≤ .standard ∧
      parse .value ⟨"[_]"⟩ .standard = parse .value ⟨"[_]"⟩ ⟨some 13, 2⟩ ∧
      Parse.steps .value ⟨⟨"[_]"⟩, ⟨none, 2⟩⟩ = 13 ∧
      ∃ e limit, parse .value ⟨"[_]"⟩ ⟨some 12, 2⟩ = .error e ∧
        e.cause = .stepLimitExceeded limit := by
  have hle : (⟨some 13, 2⟩ : Limits) ≤ .standard :=
    ⟨by decide, fun _ hm => nomatch hm⟩
  have hsteps : Parse.steps .value ⟨⟨"[_]"⟩, ⟨none, 2⟩⟩ = 13 := by cbv
  have hparse : (parse .value ⟨"[_]"⟩ ⟨some 13, 2⟩).isOk = true := by cbv
  obtain ⟨hcut, hspent⟩ := parse_of_limits_le .value ⟨"[_]"⟩
  refine ⟨hle, hcut _ _ hle ?_, hsteps, (hspent 2 12).2 (by rw [hsteps]; decide)⟩
  intro e limit h
  rw [h] at hparse
  cases hparse

end WeLang
