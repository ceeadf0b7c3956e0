import WeLang.Proofs.Spanless
import WeLang.Proofs.Twins

/-!
# Parsing in lockstep

The parser knows no tokens, only bytes and offsets, and yet it depends on nothing
but the tokens. Take two sources with the same tokens and run the same pattern on
both, from corresponding offsets and with states that are the same but for spans.
Then the two runs end alike: at corresponding offsets, or both with a miss, or
both with an error for the same cause, and again with states that are the same
but for spans (`Twins.SameStep`).

This is shown for each way to put matchers together, and by induction on the
pattern for all of them (`Twins.run_lockstep`). The misses themselves are not
compared. They are from where an attempt started, about which nobody cares in the
end, and what they say is also said by the furthest miss, which is part of the
progress.

The end of the source is the one thing behind which a matcher is at an offset that
corresponds to nothing, because it goes over the blanks. Nothing comes behind it,
so that no harm is done.
-/

namespace WeLang

namespace Twins

variable {w : Twins} {o o' stop stop' : Nat} {s s' t t' : State}

/-! ## States and steps -/

/-- States that are the same but for spans. -/
structure SameState (w : Twins) (s s' : State) : Prop where
  draft : s.draft.spanless = s'.draft.spanless
  progress : w.SameProgress s.progress s'.progress

/-- Ends of two runs that are the same but for spans. Where they stop is related by
`R`. -/
inductive SameStep (w : Twins) (R : Nat → Nat → Prop) : Step → Step → Prop
  | ok {stop stop' : Nat} {s s' : State} (stops : R stop stop') (states : w.SameState s s') :
      SameStep w R (.ok stop s) (.ok stop' s')
  | miss {m m' : Miss} {s s' : State} (states : w.SameState s s') :
      SameStep w R (.error (.miss m) s) (.error (.miss m') s')
  | fatal {e e' : ParseError} {s s' : State} (cause : e.cause = e'.cause) :
      SameStep w R (.error (.fatal e) s) (.error (.fatal e') s')

/-- Matchers that end alike wherever they start alike. -/
def Lockstep (w : Twins) (R : Nat → Nat → Prop) (p q : Matcher) : Prop :=
  ∀ o o' s s', w.Abreast o o' → w.SameState s s' → w.SameStep R (p o s) (q o' s')

/-- Nothing is said about where two matchers stop. -/
def Anywhere (_ _ : Nat) : Prop :=
  True

variable {R : Nat → Nat → Prop} {p p' q q' : Matcher}

theorem SameState.restore (h : w.SameState t t') (hs : w.SameState s s') :
    w.SameState (t.restore s.draft.mark) (t'.restore s'.draft.mark) := by
  refine ⟨?_, h.progress⟩
  simp only [State.restore, Draft.spanless_restore, h.draft, hs.draft]

theorem SameState.settle {f g : Edit} (h : w.SameState s s') (hfg : f.Alike g)
    (hstop : R stop stop') : w.SameStep R (s.settle f stop) (s'.settle g stop') := by
  have hagree := hfg _ _ h.draft
  unfold State.settle
  generalize f s.draft = out at hagree
  generalize g s'.draft = out' at hagree
  cases hagree with
  | ok same => exact .ok hstop ⟨same, h.progress⟩
  | error cause => exact .fatal cause

/-! ## Tokens and the end -/

theorem token_lockstep {k : TokenKind} {note : Lexeme → Edit}
    (hnote : ∀ x x' : Lexeme, x.text = x'.text → (note x).Alike (note x')) :
    w.Lockstep w.Abreast (Matcher.token w.leftCx k note) (Matcher.token w.rightCx k note) := by
  intro o o' s s' ho hs
  have hspend := hs.progress.spend
  have hsteps : s.progress.spend.steps = s'.progress.spend.steps := by
    simp only [Progress.steps, hspend.attempts]
  unfold Matcher.token
  cases hlimit : w.limits.exceeded? s.progress.spend.steps with
  | some limit =>
      have hlimit' := hsteps ▸ hlimit
      simp only [Context.lex, leftCx, rightCx, hlimit, hlimit']
      exact .fatal rfl
  | none =>
      have hlimit' : w.limits.exceeded? s'.progress.spend.steps = none := hsteps ▸ hlimit
      have hleft : w.leftCx.Affords s.progress := hlimit
      have hright : w.rightCx.Affords s'.progress := hlimit'
      have hmiss : w.SameState
          ⟨s.draft, s.progress.spend.noteMiss (w.left.skipBlanks o) (.single k)⟩
          ⟨s'.draft, s'.progress.spend.noteMiss (w.right.skipBlanks o') (.single k)⟩ :=
        ⟨hs.draft, hspend.noteMiss ho _⟩
      rcases ho.next with ⟨hend, hend'⟩ | ⟨x, y, hx, hy, hxy, hnext⟩
      · rw [Context.lex_of_not_answers hleft (Source.not_answers_of_isSpent hend),
          Context.lex_of_not_answers hright (Source.not_answers_of_isSpent hend')]
        exact .miss hmiss
      · obtain ⟨hkind, htext⟩ := Prod.mk.inj hxy
        by_cases hk : k = x.kind
        · subst hk
          have hprogress := hspend.noteCollision ho hx hy hxy
          rw [hkind] at hprogress
          rw [Context.lex_of_lexeme? hleft hx, hkind, Context.lex_of_lexeme? hright hy]
          exact SameState.settle ⟨hs.draft, hprogress⟩ (hnote x y htext) hnext
        · rw [Context.lex_of_ne hleft hx hk, Context.lex_of_ne hright hy (hkind ▸ hk)]
          exact .miss hmiss

theorem endOfInput_lockstep :
    w.Lockstep Anywhere (Matcher.endOfInput w.leftCx) (Matcher.endOfInput w.rightCx) := by
  intro o o' s s' ho hs
  rw [Matcher.endOfInput_eq, Matcher.endOfInput_eq]
  rcases ho.next with ⟨hend, hend'⟩ | ⟨x, y, hx, hy, _⟩
  · rw [if_pos (show w.leftCx.source.isSpent o = true from hend),
      if_pos (show w.rightCx.source.isSpent o' = true from hend')]
    exact .ok trivial hs
  · have hleft := Source.isSpent_of_lexeme? hx
    have hright := Source.isSpent_of_lexeme? hy
    rw [if_neg (by simp [leftCx, hleft]), if_neg (by simp [rightCx, hright])]
    exact .miss ⟨hs.draft, hs.progress.noteMiss ho _⟩

theorem ahead_lockstep (hp : w.Lockstep R p p') :
    w.Lockstep w.Abreast (Matcher.ahead p) (Matcher.ahead p') := by
  intro o o' s s' ho hs
  have h := hp o o' s s' ho hs
  unfold Matcher.ahead
  generalize p o s = out at h
  generalize p' o' s' = out' at h
  cases h with
  | ok _ states => exact .ok ho states
  | miss states => exact .miss states
  | fatal cause => exact .fatal cause

theorem done_lockstep : w.Lockstep w.Abreast Matcher.done Matcher.done :=
  fun _ _ _ _ ho hs => .ok ho hs

theorem never_lockstep : w.Lockstep w.Abreast Matcher.never Matcher.never :=
  fun _ _ _ _ _ hs => .miss hs

/-! ## Sequence and choice -/

theorem andThen_lockstep (hp : w.Lockstep w.Abreast p p') (hq : w.Lockstep R q q') :
    w.Lockstep R (Matcher.andThen p q) (Matcher.andThen p' q') := by
  intro o o' s s' ho hs
  have h := hp o o' s s' ho hs
  unfold Matcher.andThen
  generalize p o s = out at h
  generalize p' o' s' = out' at h
  cases h with
  | @ok next next' t t' stops states =>
      have h := hq next next' t t' stops states
      simp only
      generalize q next t = out at h
      generalize q' next' t' = out' at h
      cases h with
      | ok stops states => exact .ok stops states
      | miss states => exact .miss states
      | fatal cause => exact .fatal cause
  | miss states => exact .miss states
  | fatal cause => exact .fatal cause

theorem orElse_lockstep (hp : w.Lockstep R p p') (hq : w.Lockstep R q q') :
    w.Lockstep R (Matcher.orElse p q) (Matcher.orElse p' q') := by
  intro o o' s s' ho hs
  have h := hp o o' s s' ho hs
  unfold Matcher.orElse
  generalize p o s = out at h
  generalize p' o' s' = out' at h
  cases h with
  | ok stops states => exact .ok stops states
  | @miss _ _ t t' states =>
      have h := hq o o' _ _ ho (states.restore hs)
      simp only
      generalize q o (t.restore s.draft.mark) = out at h
      generalize q' o' (t'.restore s'.draft.mark) = out' at h
      cases h with
      | ok stops states => exact .ok stops states
      | miss states => exact .miss states
      | fatal cause => exact .fatal cause
  | fatal cause => exact .fatal cause

theorem optional_lockstep (hp : w.Lockstep w.Abreast p p') :
    w.Lockstep w.Abreast (Matcher.optional p) (Matcher.optional p') := by
  intro o o' s s' ho hs
  have h := hp o o' s s' ho hs
  unfold Matcher.optional
  generalize p o s = out at h
  generalize p' o' s' = out' at h
  cases h with
  | ok stops states => exact .ok stops states
  | miss states => exact .ok ho (states.restore hs)
  | fatal cause => exact .fatal cause

theorem andEdit_lockstep {edit : Draft → Edit} (hp : w.Lockstep R p p')
    (hedit : ∀ d d' : Draft, d.spanless = d'.spanless → (edit d).Alike (edit d')) :
    w.Lockstep R (Matcher.andEdit p edit) (Matcher.andEdit p' edit) := by
  intro o o' s s' ho hs
  have h := hp o o' s s' ho hs
  unfold Matcher.andEdit
  generalize p o s = out at h
  generalize p' o' s' = out' at h
  cases h with
  | ok stops states => exact states.settle (hedit _ _ hs.draft) stops
  | miss states => exact .miss states
  | fatal cause => exact .fatal cause

/-! ## Repetition -/

/-- Rounds that are the same but for spans. -/
inductive SameRound (w : Twins) : Matcher.Round → Matcher.Round → Prop
  | again {next next' : Nat} {s s' : State} (nexts : w.Abreast next next')
      (states : w.SameState s s') : SameRound w (.again next s) (.again next' s')
  | stop {stop stop' : Nat} {s s' : State} (stops : w.Abreast stop stop')
      (states : w.SameState s s') : SameRound w (.stop stop s) (.stop stop' s')
  | fail {e e' : ParseError} {s s' : State} (cause : e.cause = e'.cause) :
      SameRound w (.fail e s) (.fail e' s')

/-- Repetitions go through as many rounds on either side. -/
theorem rounds_lockstep {round round' : Nat → State → Matcher.Round}
    (h : ∀ o o' s s', w.Abreast o o' → w.SameState s s' → w.SameRound (round o s) (round' o' s')) :
    w.Lockstep w.Abreast (Matcher.rounds w.left.size round)
      (Matcher.rounds w.right.size round') := by
  intro o o' s s' ho hs
  induction hn : w.left.size - o using Nat.strongRecOn generalizing o o' s s' with
  | ind n ih =>
      have hround := h o o' s s' ho hs
      rw [Matcher.rounds, Matcher.rounds]
      generalize round o s = out at hround
      generalize round' o' s' = out' at hround
      cases hround with
      | stop stops states => exact .ok stops states
      | fail cause => exact .fatal cause
      | @again next next' t t' nexts states =>
          obtain ⟨hsize, hsize'⟩ := nexts.le_size
          have hlt := ho.lt_iff nexts
          simp only
          by_cases hgo : o < next
          · have hgo' := hlt.1 hgo
            rw [if_pos ⟨hgo, by omega⟩, if_pos ⟨hgo', by omega⟩]
            exact ih (w.left.size - next) (by omega) next next' t t' nexts states rfl
          · rw [if_neg fun hand => hgo hand.1, if_neg fun hand => hgo (hlt.2 hand.1)]
            exact .ok nexts states

theorem many_lockstep (hp : w.Lockstep w.Abreast p p') :
    w.Lockstep w.Abreast (Matcher.many w.leftCx p) (Matcher.many w.rightCx p') := by
  refine rounds_lockstep fun o o' s s' ho hs => ?_
  have h := hp o o' s s' ho hs
  unfold Matcher.manyRound
  generalize p o s = out at h
  generalize p' o' s' = out' at h
  cases h with
  | @ok next next' _ _ stops states =>
      have hlt := ho.lt_iff stops
      simp only
      by_cases hgo : o < next
      · rw [if_pos hgo, if_pos (hlt.1 hgo)]
        exact .again stops states
      · rw [if_neg hgo, if_neg fun hgo' => hgo (hlt.2 hgo')]
        exact .stop ho (states.restore hs)
  | miss states => exact .stop ho (states.restore hs)
  | fatal cause => exact .fail cause

theorem separatedRound_lockstep (hp : w.Lockstep w.Abreast p p') (k : TokenKind) :
    w.Lockstep w.Abreast
      (Matcher.rounds w.left.size (Matcher.separatedRound w.leftCx p k))
      (Matcher.rounds w.right.size (Matcher.separatedRound w.rightCx p' k)) := by
  refine rounds_lockstep fun o o' s s' ho hs => ?_
  have hseparator : w.SameStep w.Abreast (Matcher.expect w.leftCx k o s)
      (Matcher.expect w.rightCx k o' s') :=
    token_lockstep (fun _ _ _ => Edit.alike_pure) o o' s s' ho hs
  unfold Matcher.separatedRound
  generalize Matcher.expect w.leftCx k o s = out at hseparator
  generalize Matcher.expect w.rightCx k o' s' = out' at hseparator
  cases hseparator with
  | @ok next next' t t' stops states =>
      have h := hp next next' t t' stops states
      simp only
      generalize p next t = out at h
      generalize p' next' t' = out' at h
      cases h with
      | ok stops' states' => exact .again stops' states'
      | miss states' => exact .stop stops (states'.restore states)
      | fatal cause => exact .fail cause
  | miss states => exact .stop ho states
  | fatal cause => exact .fail cause

theorem separated_lockstep (hp : w.Lockstep w.Abreast p p') (k : TokenKind) :
    w.Lockstep w.Abreast (Matcher.separated w.leftCx p k) (Matcher.separated w.rightCx p' k) := by
  intro o o' s s' ho hs
  have h := hp o o' s s' ho hs
  unfold Matcher.separated
  generalize p o s = out at h
  generalize p' o' s' = out' at h
  cases h with
  | ok stops states => exact separatedRound_lockstep hp k _ _ _ _ stops states
  | miss states => exact .ok ho (states.restore hs)
  | fatal cause => exact .fatal cause

/-! ## Nodes -/

theorem child_lockstep {attach : Node → Edit} (hp : w.Lockstep w.Abreast p p')
    (hattach : ∀ n n' : Node, n.spanless = n'.spanless → (attach n).Alike (attach n')) :
    w.Lockstep w.Abreast (Matcher.child w.leftCx p attach)
      (Matcher.child w.rightCx p' attach) := by
  intro o o' s s' ho hs
  have hdepth := hs.progress.depth
  rcases Nat.lt_or_ge s.progress.depth w.limits.maxDepth with hroom | hfull
  · have h := hp o o' ⟨.blank, s.progress.deeper⟩ ⟨.blank, s'.progress.deeper⟩ ho
      ⟨rfl, hs.progress.deeper⟩
    rw [Matcher.child_of_room (show _ < w.leftCx.limits.maxDepth from hroom),
      Matcher.child_of_room (show _ < w.rightCx.limits.maxDepth from hdepth ▸ hroom)]
    generalize p o ⟨.blank, s.progress.deeper⟩ = out at h
    generalize p' o' ⟨.blank, s'.progress.deeper⟩ = out' at h
    cases h with
    | ok stops states =>
        refine SameState.settle ⟨hs.draft, states.progress.leave⟩ (hattach _ _ ?_) stops
        rw [Draft.spanless_finish, Draft.spanless_finish, states.draft]
    | miss states => exact .miss ⟨hs.draft, states.progress.leave⟩
    | fatal cause => exact .fatal cause
  · rw [Matcher.child_of_full (show w.leftCx.limits.maxDepth ≤ _ from hfull),
      Matcher.child_of_full (show w.rightCx.limits.maxDepth ≤ _ from hdepth ▸ hfull)]
    exact .fatal rfl

/-! ## Patterns and the grammar -/

/-- A pattern that looks at no span runs in lockstep on twins. -/
theorem run_lockstep {ν : Type} {env env' : ν → Matcher} {p : Pattern ν}
    (henv : ∀ n, w.Lockstep w.Abreast (env n) (env' n)) (h : p.SpanBlind) :
    w.Lockstep w.Abreast (p.run w.leftCx env) (p.run w.rightCx env') := by
  induction p with
  | token kind note => exact token_lockstep h
  | endOfInput => exact h.elim
  | done => exact done_lockstep
  | never => exact never_lockstep
  | andThen p q ihp ihq => exact andThen_lockstep (ihp h.1) (ihq h.2)
  | orElse p q ihp ihq => exact orElse_lockstep (ihp h.1) (ihq h.2)
  | optional p ih => exact optional_lockstep (ih h)
  | many p ih => exact many_lockstep (ih h)
  | separated item separator ih => exact separated_lockstep (ih h) separator
  | ahead p _ =>
      subst h
      exact ahead_lockstep endOfInput_lockstep
  | child p attach ih => exact child_lockstep (ih h.1) h.2
  | andEdit p edit ih => exact andEdit_lockstep (ih h.1) h.2
  | ref name => exact henv name

theorem valueWithin_lockstep (levels : Nat) :
    w.Lockstep w.Abreast (Grammar.valueWithin w.leftCx levels)
      (Grammar.valueWithin w.rightCx levels) := by
  induction levels with
  | zero => exact fun _ _ _ _ _ _ => .fatal rfl
  | succ levels ih =>
      have hblind : (Grammar.value (.ref Nonterminal.value)).SpanBlind :=
        (Grammar.value_natural Grammar.ref_natural).spanBlind
      exact run_lockstep (fun _ => ih) hblind

theorem Lockstep.mono {R' : Nat → Nat → Prop} (h : w.Lockstep R p p')
    (hR : ∀ a a', R a a' → R' a a') : w.Lockstep R' p p' := by
  intro o o' s s' ho hs
  have h := h o o' s s' ho hs
  generalize p o s = out at h
  generalize p' o' s' = out' at h
  cases h with
  | ok stops states => exact .ok (hR _ _ stops) states
  | miss states => exact .miss states
  | fatal cause => exact .fatal cause

theorem Lockstep.andThen_done (h : w.Lockstep R p p') :
    w.Lockstep R (Matcher.andThen p Matcher.done) (Matcher.andThen p' Matcher.done) := by
  intro o o' s s' ho hs
  have h := h o o' s s' ho hs
  unfold Matcher.andThen
  generalize p o s = out at h
  generalize p' o' s' = out' at h
  cases h with
  | ok stops states => exact .ok stops states
  | miss states => exact .miss states
  | fatal cause => exact .fatal cause

/-- Whole sources are read in lockstep. -/
theorem goal_lockstep (goal : Goal) :
    w.Lockstep Anywhere (goal.matcher w.leftCx) (goal.matcher w.rightCx) := by
  have henv (n : Nonterminal) :
      w.Lockstep w.Abreast (Grammar.meaning w.leftCx n) (Grammar.meaning w.rightCx n) :=
    valueWithin_lockstep _
  cases goal with
  | module =>
      have hblind : (Grammar.entry (.ref Nonterminal.value)).SpanBlind :=
        (Grammar.entry_natural Grammar.ref_natural).spanBlind
      have huses := many_lockstep (run_lockstep henv Grammar.useStatement_natural.spanBlind)
      have hentries := many_lockstep (run_lockstep henv hblind)
      have hend := andThen_lockstep huses (andThen_lockstep hentries
        (Lockstep.andThen_done endOfInput_lockstep))
      have hmodule := Edit.moves_modify (f := fun _ => default) Draft.relocate_completeModule
      exact andEdit_lockstep hend fun _ _ _ => Edit.alike_of_moves hmodule hmodule
  | value =>
      have hblind : (Grammar.soleValue (.ref Nonterminal.value)).SpanBlind :=
        (Grammar.soleValue_natural Grammar.ref_natural).spanBlind
      exact (run_lockstep henv hblind).mono fun _ _ _ => trivial

end Twins

/-! ## Results -/

/-- Results of two parses that are the same but for where things are: trees that are
the same without spans and warnings about the same words, or errors for the same
cause. -/
def SameResult : Except ParseError Parsed → Except ParseError Parsed → Prop
  | .ok p, .ok q => p.node.spanless = q.node.spanless ∧
      p.warnings.map KeywordCollision.word = q.warnings.map KeywordCollision.word
  | .error e, .error e' => e.cause = e'.cause
  | _, _ => False

namespace Parse

variable {s : Source} {m : Miss}

theorem errorAt_of_lexeme? {x : Lexeme} (h : s.lexeme? m.offset = some x) :
    (errorAt s m).cause = .unexpectedToken m.expected (some x.kind) := by
  have hk : x.kind ≠ .unknown := by
    intro hk
    have hm := (Source.lexeme?_eq_some.1 h).2.1
    rw [hk] at hm
    cases hm
  have hpeek := (Source.lexeme?_eq_peek hk).1 ⟨x, h, rfl, rfl⟩
  obtain ⟨kind, text, span⟩ := x
  rw [errorAt]
  rw [hpeek]
  cases kind with
  | unknown => exact absurd rfl hk
  | _ => rfl

theorem errorAt_of_isSpent (h : s.isSpent m.offset = true) :
    (errorAt s m).cause = .unexpectedToken m.expected none := by
  have hpeek : peek s m.offset = .ok none := by
    refine peek_eq_none.2 fun hleft => ?_
    simp only [Source.isSpent, decide_eq_true_eq] at h
    omega
  rw [errorAt]
  rw [hpeek]

end Parse

namespace Twins

variable {w : Twins}

theorem SameMiss.errorAt {m m' : Miss} (h : w.SameMiss m m') :
    (Parse.errorAt w.left m).cause = (Parse.errorAt w.right m').cause := by
  obtain ⟨hexpected, o, o', ho, hm, hm'⟩ := h
  rcases ho.next with ⟨hend, hend'⟩ | ⟨x, y, hx, hy, hxy, _⟩
  · rw [Parse.errorAt_of_isSpent, Parse.errorAt_of_isSpent, hexpected]
    · simpa [Source.isSpent, hm', Source.skipBlanks_idem] using hend'
    · simpa [Source.isSpent, hm, Source.skipBlanks_idem] using hend
  · rw [← Source.lexeme?_skipBlanks, ← hm] at hx
    rw [← Source.lexeme?_skipBlanks, ← hm'] at hy
    rw [Parse.errorAt_of_lexeme? hx, Parse.errorAt_of_lexeme? hy, hexpected,
      show x.kind = y.kind from congrArg Prod.fst hxy]

theorem SameProgress.words {p q : Progress} (h : w.SameProgress p q) :
    p.warnings.toList.map KeywordCollision.word = q.warnings.toList.map KeywordCollision.word := by
  have hall := h.warnings
  generalize p.warnings.toList = ks at hall
  generalize q.warnings.toList = ks' at hall
  induction hall with
  | nil => rfl
  | cons hk _ ih => rw [List.map_cons, List.map_cons, ih, hk.1]

/-- Twins are parsed alike. -/
theorem sameResult (w : Twins) (goal : Goal) :
    SameResult (parse goal w.left w.limits) (parse goal w.right w.limits) := by
  unfold parse
  rcases Nat.eq_zero_or_pos w.limits.maxDepth with hfull | hroom
  · have hleft : Parse.outcome goal ⟨w.left, w.limits⟩ = _ := Parse.outcome_of_full hfull
    have hright : Parse.outcome goal ⟨w.right, w.limits⟩ = _ := Parse.outcome_of_full hfull
    rw [hleft, hright]
    exact rfl
  · have h := w.goal_lockstep goal 0 0 ⟨.blank, Progress.none.deeper⟩
      ⟨.blank, Progress.none.deeper⟩ (.zero w) ⟨rfl, (SameProgress.none w).deeper⟩
    have hleft : Parse.outcome goal w.leftCx = _ := Parse.outcome_of_room hroom
    have hright : Parse.outcome goal w.rightCx = _ := Parse.outcome_of_room hroom
    generalize goal.matcher w.leftCx 0 ⟨.blank, Progress.none.deeper⟩ = out at h hleft
    generalize goal.matcher w.rightCx 0 ⟨.blank, Progress.none.deeper⟩ = out' at h hright
    cases h with
    | ok _ states =>
        rw [show Parse.outcome goal ⟨w.left, w.limits⟩ = _ from hleft,
          show Parse.outcome goal ⟨w.right, w.limits⟩ = _ from hright]
        refine ⟨?_, states.progress.words⟩
        simp only [Draft.spanless_finish, states.draft]
    | miss states =>
        obtain ⟨f, hf, herror⟩ := Parse.errorOf_miss hleft
        obtain ⟨f', hf', herror'⟩ := Parse.errorOf_miss hright
        rw [show Parse.outcome goal ⟨w.left, w.limits⟩ = _ from hleft,
          show Parse.outcome goal ⟨w.right, w.limits⟩ = _ from hright]
        have hfurthest := states.progress.leave.furthest
        rw [hf, hf'] at hfurthest
        cases hfurthest with
        | some hsame =>
            show (Parse.errorOf w.leftCx.source _ _).cause =
              (Parse.errorOf w.rightCx.source _ _).cause
            rw [herror, herror']
            exact hsame.errorAt
    | fatal cause =>
        rw [show Parse.outcome goal ⟨w.left, w.limits⟩ = _ from hleft,
          show Parse.outcome goal ⟨w.right, w.limits⟩ = _ from hright]
        exact cause

end Twins

/-- A parse depends on the kinds and texts of the tokens alone. Sources that can be
cut into the same tokens, wherever these stand, are parsed alike. -/
theorem parse_sameResult {s s' : Source} {ts ts' : List Token} (goal : Goal) (l : Limits)
    (h : tokenize s = .ok ts) (h' : tokenize s' = .ok ts')
    (hwords : ts.map (fun t => (t.kind, t.text)) = ts'.map fun t => (t.kind, t.text)) :
    SameResult (parse goal s l) (parse goal s' l) := by
  let w : Twins :=
    { left := s
      right := s'
      limits := l
      xs := ts.map Token.lexeme
      ys := ts'.map Token.lexeme
      reads_left := (tokenize_eq_ok.1 h).2
      reads_right := (tokenize_eq_ok.1 h').2
      words := by simpa [Token.lexeme, Lexeme.word, Function.comp_def] using hwords }
  exact w.sameResult goal

open TokenKind in
/-- Blanks around a glued word make no difference: both parses warn of it. -/
theorem parse_sameResult_glued :
    ∃ ts ts', tokenize ⟨"(_use)"⟩ = .ok ts ∧ tokenize ⟨"( _use\n)"⟩ = .ok ts' ∧
      ts.map (fun t => (t.kind, t.text)) = ts'.map (fun t => (t.kind, t.text)) ∧
      SameResult (parse .value ⟨"(_use)"⟩) (parse .value ⟨"( _use\n)"⟩) := by
  have h : tokenize ⟨"(_use)"⟩ = .ok
      [⟨symbol .functionStart, "(", ⟨0, 1⟩, ⟨1, 1⟩⟩, ⟨symbol .discard, "_", ⟨1, 2⟩, ⟨1, 2⟩⟩,
        ⟨identifier, "use", ⟨2, 5⟩, ⟨1, 3⟩⟩, ⟨symbol .functionEnd, ")", ⟨5, 6⟩, ⟨1, 6⟩⟩] := by
    cbv
  have h' : tokenize ⟨"( _use\n)"⟩ = .ok
      [⟨symbol .functionStart, "(", ⟨0, 1⟩, ⟨1, 1⟩⟩, ⟨symbol .discard, "_", ⟨2, 3⟩, ⟨1, 3⟩⟩,
        ⟨identifier, "use", ⟨3, 6⟩, ⟨1, 4⟩⟩, ⟨symbol .functionEnd, ")", ⟨7, 8⟩, ⟨2, 1⟩⟩] := by
    cbv
  exact ⟨_, _, h, h', rfl, parse_sameResult .value .standard h h' rfl⟩

end WeLang
