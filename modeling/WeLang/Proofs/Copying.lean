import WeLang.Proofs.Bracketing
import WeLang.Proofs.Placing
import WeLang.Proofs.Relocating

/-!
# A value that is read in two places

The tokens of a value may stand in two sources, behind and before different things, and at
different depths. `Copy` is such a value, with a context on the left and one on the right.
Where a parser that is reading the value on the left has come to, it comes to on the right
as well, and what it has left in the draft is the same but for the place
(`Copy.Follows`). For as long as there are tokens of the value left, it gets the same
answers on both sides. When there are none left, all it may still ask for is a dot
(`Language.IsValue.next`), which is not there on either side.

The two sides are not treated alike. Nothing is said about the right when the left breaks
off with an error, so the limits of the left do not matter; those of the right must leave as
much room as is used on the left.
-/

namespace WeLang

open WeLang.Language

/-- A span both ends of which are moved. -/
def Span.move (g : Nat → Nat) (s : Span) : Span :=
  ⟨g s.start, g s.stop⟩

namespace Source.Path

variable {src src' : Source} {g : Nat → Nat} {xs : List Lexeme} {o m o' m' : Nat}

/-- Where tokens begin that are moved is moved. -/
theorem skipBlanks_move (h : src.Path o xs m)
    (h' : src'.Path o' (xs.map (Lexeme.relocate (Span.move g))) m') (hne : xs ≠ []) :
    src'.skipBlanks o' = g (src.skipBlanks o) := by
  cases h with
  | nil _ => exact absurd rfl hne
  | cons head _ =>
      cases h' with
      | cons head' _ =>
          rw [← (lexeme?_eq_some.1 head).1, ← (lexeme?_eq_some.1 head').1]
          rfl

/-- Where they end is moved. -/
theorem stop_move (h : src.Path o xs m)
    (h' : src'.Path o' (xs.map (Lexeme.relocate (Span.move g))) m') (hne : xs ≠ []) :
    m' = g m := by
  induction h generalizing o' with
  | nil _ => exact absurd rfl hne
  | cons _ tail ih =>
      cases h' with
      | cons _ tail' =>
          cases tail with
          | nil _ =>
              cases tail'
              rfl
          | cons _ _ => exact ih tail' (List.cons_ne_nil _ _)

end Source.Path

/-- The tokens of a value in two sources, where a value may end behind them. -/
structure Copy where
  left : Context
  right : Context
  move : Nat → Nat
  start : Nat
  stop : Nat
  start' : Nat
  stop' : Nat
  xs : List Lexeme
  path_left : left.source.Path start xs stop
  path_right : right.source.Path start' (xs.map (Lexeme.relocate (Span.move move))) stop'
  value : IsValue (xs.map Lexeme.kind)
  closes_left : left.source.Closes stop
  closes_right : right.source.Closes stop'
  unlimited : right.limits.maxSteps = none

namespace Copy

open Matcher

variable {w : Copy} {us ys : List Lexeme} {o o' m m' stop stop' δ δ' : Nat} {s s' t t' : State}
  {L M : List TokenKind → Prop}

/-- How spans on the left are to be read on the right. -/
def place (w : Copy) : Span → Span :=
  Span.move w.move

/-! ## Offsets -/

/-- Offsets behind the same tokens of the value. -/
structure Abreast (w : Copy) (us : List Lexeme) (o o' : Nat) : Prop where
  before : us <+: w.xs
  left : w.left.source.Path w.start us o
  right : w.right.source.Path w.start' (us.map (Lexeme.relocate w.place)) o'

theorem abreast_start (w : Copy) : w.Abreast [] w.start w.start' :=
  ⟨List.nil_prefix, .nil _, .nil _⟩

namespace Abreast

/-- Either the same token is next on both sides, or the value is over. -/
theorem next (h : w.Abreast us o o') :
    (∃ x, us ++ [x] <+: w.xs ∧ w.left.source.lexeme? o = some x ∧
      w.right.source.lexeme? o' = some (x.relocate w.place)) ∨
    (us = w.xs ∧ o = w.stop ∧ o' = w.stop') := by
  obtain ⟨zs, hzs⟩ := h.before
  have hright := w.path_right
  have hleft := w.path_left
  rw [← hzs] at hleft hright
  rw [List.map_append] at hright
  obtain ⟨a, ha, hleft⟩ := hleft.of_append
  obtain ⟨b, hb, hright⟩ := hright.of_append
  obtain ⟨-, rfl⟩ := ha.eq_of_length_eq h.left rfl
  obtain ⟨-, rfl⟩ := hb.eq_of_length_eq h.right rfl
  cases zs with
  | nil =>
      cases hleft
      cases hright
      exact .inr ⟨by simpa using hzs, rfl, rfl⟩
  | cons x zs =>
      cases hleft with
      | cons head _ =>
          cases hright with
          | cons head' _ =>
              exact .inl ⟨x, ⟨zs, by rw [← hzs]; simp⟩, head, head'⟩

theorem token {x : Lexeme} (h : w.Abreast us o o') (hx : us ++ [x] <+: w.xs)
    (hleft : w.left.source.lexeme? o = some x)
    (hright : w.right.source.lexeme? o' = some (x.relocate w.place)) :
    w.Abreast (us ++ [x]) x.span.stop (x.relocate w.place).span.stop := by
  refine ⟨hx, h.left.append (.cons hleft (.nil _)), ?_⟩
  rw [List.map_append]
  exact h.right.append (.cons hright (.nil _))

/-- What is read between two pairs of offsets, it is on both sides. -/
theorem between (h : w.Abreast us o o') (h' : w.Abreast (us ++ ys) m m') :
    w.left.source.Path o ys m ∧
      w.right.source.Path o' (ys.map (Lexeme.relocate w.place)) m' := by
  obtain ⟨a, ha, hleft⟩ := h'.left.of_append
  have hright := h'.right
  rw [List.map_append] at hright
  obtain ⟨b, hb, hright⟩ := hright.of_append
  obtain ⟨-, rfl⟩ := ha.eq_of_length_eq h.left rfl
  obtain ⟨-, rfl⟩ := hb.eq_of_length_eq h.right rfl
  exact ⟨hleft, hright⟩

/-- Either nothing is read between two pairs of offsets, or there is something before the
end of both sources. -/
theorem advance (h : w.Abreast us o o') (h' : w.Abreast (us ++ ys) m m') :
    (ys = [] ∧ m = o ∧ m' = o') ∨
      ys ≠ [] ∧ (o < m ∧ o < w.left.source.size) ∧ o' < m' ∧ o' < w.right.source.size := by
  obtain ⟨hleft, hright⟩ := h.between h'
  cases ys with
  | nil =>
      cases hleft
      cases hright
      exact .inl ⟨rfl, rfl, rfl⟩
  | cons y ys =>
      have hpath {src : Source} {a b : Nat} {z : Lexeme} {zs : List Lexeme}
          (hz : src.Path a (z :: zs) b) : a < b ∧ a < src.size := by
        cases hz with
        | cons head tail =>
            have := Source.lexeme?_bounds head
            have := tail.le
            omega
      exact .inr ⟨List.cons_ne_nil _ _, hpath hleft, hpath hright⟩

/-- A node that is not empty stands in the same place on both sides. -/
theorem spanOf (h : w.Abreast us o o') (h' : w.Abreast (us ++ ys) m m') (hne : ys ≠ []) :
    w.right.source.spanOf o' m' = w.place (w.left.source.spanOf o m) := by
  obtain ⟨hleft, hright⟩ := h.between h'
  have hne' : ys.map (Lexeme.relocate w.place) ≠ [] := by simpa using hne
  rw [hleft.spanOf_eq hne, hright.spanOf_eq hne', hleft.skipBlanks_move hright hne,
    hleft.stop_move hright hne]
  rfl

end Abreast

/-! ## States and steps -/

/-- States at the depths `δ` and `δ'`, with drafts that are the same but for the place. -/
structure SameState (w : Copy) (δ δ' : Nat) (s s' : State) : Prop where
  draft : s'.draft = s.draft.relocate w.place
  depth : s.progress.depth = δ
  depth' : s'.progress.depth = δ'

/-- What becomes of a matcher on the right if something is known of it on the left, when the
tokens `us` of the value have been read: it reads as many more on the right, or misses as
well. -/
inductive SameStep (w : Copy) (us : List Lexeme) (L : List TokenKind → Prop) (δ δ' : Nat) :
    Step → Step → Prop
  | ok {ys : List Lexeme} {stop stop' : Nat} {t t' : State} (states : w.SameState δ δ' t t')
      (stops : w.Abreast (us ++ ys) stop stop') (reads : L (ys.map Lexeme.kind)) :
      SameStep w us L δ δ' (.ok stop t) (.ok stop' t')
  | miss {m m' : Miss} {t t' : State} (states : w.SameState δ δ' t t') :
      SameStep w us L δ δ' (.error (.miss m) t) (.error (.miss m') t')
  | fatal {e : ParseError} {t : State} {out : Step} :
      SameStep w us L δ δ' (.error (.fatal e) t) out

/-- A matcher on the right that does what a matcher on the left does, wherever all that is in
a language may come. The depths leave it as much room. -/
def Follows (w : Copy) (L : List TokenKind → Prop) (p p' : Matcher) : Prop :=
  ∀ ⦃us o o' s s' δ δ'⦄, w.left.limits.maxDepth + δ' ≤ w.right.limits.maxDepth + δ →
    w.Abreast us o o' → (∀ v, L v → Viable IsValue (us.map Lexeme.kind ++ v)) →
      w.SameState δ δ' s s' → w.SameStep us L δ δ' (p o s) (p' o' s')

variable {p p' q q' : Matcher}

theorem SameState.restore (h : w.SameState δ δ' t t') (hs : w.SameState δ δ' s s') :
    w.SameState δ δ' (t.restore s.draft.mark) (t'.restore s'.draft.mark) := by
  refine ⟨?_, h.depth, h.depth'⟩
  simp only [State.restore, h.draft, hs.draft, Draft.relocate_restore]

theorem SameState.settle {edit edit' : Edit} (h : w.SameState δ δ' s s')
    (hedit : Edit.Moves w.place edit edit') (hstops : w.Abreast (us ++ ys) stop stop')
    (hreads : L (ys.map Lexeme.kind)) :
    w.SameStep us L δ δ' (s.settle edit stop) (s'.settle edit' stop') := by
  have hmoved := hedit s.draft
  rw [← h.draft] at hmoved
  rw [State.settle, State.settle, hmoved]
  cases edit s.draft with
  | ok u d => exact .ok ⟨rfl, h.depth, h.depth'⟩ hstops hreads
  | error e d => exact .fatal

theorem SameStep.mono {out out' : Step} (h : w.SameStep us L δ δ' out out')
    (hLM : ∀ v, L v → M v) : w.SameStep us M δ δ' out out' := by
  cases h with
  | ok states stops reads => exact .ok states stops (hLM _ reads)
  | miss states => exact .miss states
  | fatal => exact .fatal

/-- If nothing is read, one is where one was. -/
theorem SameStep.nothing (ho : w.Abreast us o o') (h : w.SameState δ δ' t t') (hL : L []) :
    w.SameStep us L δ δ' (.ok o t) (.ok o' t') := by
  rw [← List.append_nil us] at ho
  exact .ok h ho hL

/-- What comes behind something that was read belongs to what was to be read. -/
theorem SameStep.prepend {out out' : Step} (h : w.SameStep (us ++ ys) L δ δ' out out')
    (hcont : ∀ v, L v → M (ys.map Lexeme.kind ++ v)) : w.SameStep us M δ δ' out out' := by
  cases h with
  | @ok zs _ _ _ _ states stops reads =>
      rw [List.append_assoc] at stops
      exact .ok states stops (by simpa using hcont _ reads)
  | miss states => exact .miss states
  | fatal => exact .fatal

theorem viable_behind {S : List TokenKind → Prop}
    (hv : ∀ v, M v → Viable S (us.map Lexeme.kind ++ v))
    (hcont : ∀ v, L v → M (ys.map Lexeme.kind ++ v)) :
    ∀ v, L v → Viable S ((us ++ ys).map Lexeme.kind ++ v) := by
  intro v hmem
  rw [List.map_append, List.append_assoc]
  exact hv _ (hcont v hmem)

theorem Follows.mono (h : w.Follows L p p') (hML : ∀ v, L v → M v) : w.Follows M p p' :=
  fun _ _ _ _ _ _ _ hroom ho hv hs => (h hroom ho (fun v hmem => hv v (hML v hmem)) hs).mono hML

/-! ## Tokens -/

/-- Behind the value only a dot is asked for, and it is not there. -/
theorem absent_of_next {k : TokenKind} (hv : Viable IsValue (w.xs.map Lexeme.kind ++ [k])) :
    ¬ k.Answers w.left.source (w.left.source.skipBlanks w.stop) ∧
      ¬ k.Answers w.right.source (w.right.source.skipBlanks w.stop') := by
  obtain ⟨v, hv⟩ := hv
  obtain rfl := w.value.next (by simpa using hv)
  have habsent {cx : Context} {o : Nat} (h : cx.source.Closes o) :
      ¬ (TokenKind.symbol .identifierSeparator).Answers cx.source (cx.source.skipBlanks o) := by
    rcases cx.lex_cases (.symbol .identifierSeparator) o with ⟨x, hx, hk⟩ | ⟨hk, -⟩ | habsent
    · exact absurd hk (h x hx)
    · cases hk
    · exact habsent
  exact ⟨habsent w.closes_left, habsent w.closes_right⟩

theorem token_follows (w : Copy) {k : TokenKind} {note : Lexeme → Edit}
    (hnote : ∀ (f : Span → Span) (x x' : Lexeme), x'.text = x.text → x'.span = f x.span →
      Edit.Moves f (note x) (note x')) :
    w.Follows (· = [k]) (token w.left k note) (token w.right k note) := by
  intro us o o' s s' δ δ' hroom ho hv hs
  have hright : w.right.Affords s'.progress := Context.affords_of_unlimited w.unlimited _
  unfold token
  cases hlimit : w.left.limits.exceeded? s.progress.spend.steps with
  | some limit =>
      simp only [Context.lex, hlimit]
      exact .fatal
  | none =>
      have hleft : w.left.Affords s.progress := hlimit
      rcases ho.next with ⟨x, hx, hlx, hrx⟩ | ⟨rfl, rfl, rfl⟩
      · by_cases hk : k = x.kind
        · subst hk
          have hdepth (p : Progress) (cx : Context) (span : Span) :
              (p.spend.noteCollision cx x.kind span).depth = p.depth :=
            (Progress.Later.noteCollision p.spend cx x.kind span).depth
          have hlex : w.right.lex x.kind o' s'.progress = .ok (x.relocate w.place)
              (s'.progress.spend.noteCollision w.right x.kind (w.place x.span)) :=
            Context.lex_of_lexeme? hright hrx
          rw [Context.lex_of_lexeme? hleft hlx, hlex]
          exact SameState.settle
            ⟨hs.draft, (hdepth _ _ x.span).trans hs.depth, (hdepth _ _ _).trans hs.depth'⟩
            (hnote w.place x (x.relocate w.place) rfl rfl) (ho.token hx hlx hrx) rfl
        · rw [Context.lex_of_ne hleft hlx hk, Context.lex_of_ne hright hrx hk]
          exact .miss ⟨hs.draft, hs.depth, hs.depth'⟩
      · obtain ⟨habsent, habsent'⟩ := absent_of_next (hv _ rfl)
        rw [Context.lex_of_not_answers hleft habsent, Context.lex_of_not_answers hright habsent']
        exact .miss ⟨hs.draft, hs.depth, hs.depth'⟩

/-! ## Sequence and choice -/

theorem done_follows : w.Follows (· = []) done done := by
  intro us o o' s s' δ δ' _ ho _ hs
  exact .nothing ho hs rfl

theorem never_follows : w.Follows (fun _ => False) never never :=
  fun _ _ _ _ _ _ _ _ _ _ hs => .miss hs

theorem andThen_follows (hp : w.Follows L p p') (hq : w.Follows M q q') (hM : ∃ v, M v) :
    w.Follows (fun v => ∃ u u', v = u ++ u' ∧ L u ∧ M u') (andThen p q) (andThen p' q') := by
  intro us o o' s s' δ δ' hroom ho hv hs
  have hvp : ∀ u, L u → Viable IsValue (us.map Lexeme.kind ++ u) := by
    intro u hu
    obtain ⟨u', hu'⟩ := hM
    have := hv (u ++ u') ⟨u, u', rfl, hu, hu'⟩
    rw [← List.append_assoc] at this
    exact this.of_append
  have hfirst := hp hroom ho hvp hs
  unfold andThen
  generalize p o s = out at hfirst
  generalize p' o' s' = out' at hfirst
  cases hfirst with
  | miss states => exact .miss states
  | fatal => exact .fatal
  | @ok ys next next' t t' states stops reads =>
      have hcont : ∀ v, M v → ∃ u u', ys.map Lexeme.kind ++ v = u ++ u' ∧ L u ∧ M u' :=
        fun v hmem => ⟨_, v, rfl, reads, hmem⟩
      have hsecond := SameStep.prepend (M := fun v => ∃ u u', v = u ++ u' ∧ L u ∧ M u')
        (hq hroom stops (viable_behind hv hcont) states) hcont
      simp only
      generalize q next t = out at hsecond
      generalize q' next' t' = out' at hsecond
      cases hsecond with
      | ok states stops reads => exact .ok states stops reads
      | miss states => exact .miss states
      | fatal => exact .fatal

theorem orElse_follows (hp : w.Follows L p p') (hq : w.Follows M q q') :
    w.Follows (fun v => L v ∨ M v) (orElse p q) (orElse p' q') := by
  intro us o o' s s' δ δ' hroom ho hv hs
  have hfirst := hp hroom ho (fun u hu => hv u (.inl hu)) hs
  unfold orElse
  generalize p o s = out at hfirst
  generalize p' o' s' = out' at hfirst
  cases hfirst with
  | ok states stops reads => exact .ok states stops (.inl reads)
  | fatal => exact .fatal
  | @miss _ _ t t' states =>
      have hsecond := hq hroom ho (fun u hu => hv u (.inr hu)) (states.restore hs)
      simp only
      generalize q o (t.restore s.draft.mark) = out at hsecond
      generalize q' o' (t'.restore s'.draft.mark) = out' at hsecond
      cases hsecond with
      | ok states stops reads => exact .ok states stops (.inr reads)
      | miss states => exact .miss states
      | fatal => exact .fatal

theorem optional_follows (hp : w.Follows L p p') :
    w.Follows (fun v => v = [] ∨ L v) (Matcher.optional p) (Matcher.optional p') := by
  intro us o o' s s' δ δ' hroom ho hv hs
  have h := hp hroom ho (fun u hu => hv u (.inr hu)) hs
  unfold Matcher.optional
  generalize p o s = out at h
  generalize p' o' s' = out' at h
  cases h with
  | ok states stops reads => exact .ok states stops (.inr reads)
  | miss states =>
      exact .nothing ho (states.restore hs) (.inl rfl)
  | fatal => exact .fatal

theorem andEdit_follows {edit : Draft → Edit} (hp : w.Follows L p p')
    (hedit : ∀ (f : Span → Span) (d : Draft), Edit.Moves f (edit d) (edit (d.relocate f))) :
    w.Follows L (andEdit p edit) (andEdit p' edit) := by
  intro us o o' s s' δ δ' hroom ho hv hs
  have h := hp hroom ho hv hs
  unfold andEdit
  generalize p o s = out at h
  generalize p' o' s' = out' at h
  cases h with
  | ok states stops reads =>
      simp only [hs.draft]
      exact states.settle (hedit w.place s.draft) stops reads
  | miss states => exact .miss states
  | fatal => exact .fatal

/-! ## Repetition -/

/-- What becomes of a round on the right if something is known of it on the left. What may
come of a repetition may come behind a round that is not the last. -/
inductive SameRound (w : Copy) (us : List Lexeme) (M : List TokenKind → Prop) (δ δ' : Nat) :
    Round → Round → Prop
  | again {ys : List Lexeme} {next next' : Nat} {t t' : State} (states : w.SameState δ δ' t t')
      (nexts : w.Abreast (us ++ ys) next next')
      (reads : ∀ v, M v → M (ys.map Lexeme.kind ++ v)) :
      SameRound w us M δ δ' (.again next t) (.again next' t')
  | stop {ys : List Lexeme} {stop stop' : Nat} {t t' : State} (states : w.SameState δ δ' t t')
      (stops : w.Abreast (us ++ ys) stop stop') (reads : M (ys.map Lexeme.kind)) :
      SameRound w us M δ δ' (.stop stop t) (.stop stop' t')
  | fail {e : ParseError} {t : State} {out : Round} : SameRound w us M δ δ' (.fail e t) out

theorem SameRound.nothing (ho : w.Abreast us o o') (h : w.SameState δ δ' t t') (hM : M []) :
    w.SameRound us M δ δ' (.stop o t) (.stop o' t') := by
  rw [← List.append_nil us] at ho
  exact .stop h ho hM

/-- Rounds that follow each other have the repetition follow as well. -/
theorem rounds_follows {round round' : Nat → State → Round} (hM : M [])
    (h : ∀ ⦃us o o' s s' δ δ'⦄, w.left.limits.maxDepth + δ' ≤ w.right.limits.maxDepth + δ →
      w.Abreast us o o' → (∀ v, M v → Viable IsValue (us.map Lexeme.kind ++ v)) →
        w.SameState δ δ' s s' → w.SameRound us M δ δ' (round o s) (round' o' s')) :
    w.Follows M (rounds w.left.source.size round) (rounds w.right.source.size round') := by
  intro us o o' s s' δ δ' hroom ho hv hs
  induction hn : w.left.source.size - o using Nat.strongRecOn generalizing us o o' s s' with
  | ind n ih =>
      have hround := h hroom ho hv hs
      rw [rounds, rounds]
      generalize round o s = out at hround
      generalize round' o' s' = out' at hround
      cases hround with
      | stop states stops reads => exact .ok states stops reads
      | fail => exact .fatal
      | @again ys next next' t t' states nexts reads =>
          simp only
          rcases ho.advance nexts with ⟨-, rfl, rfl⟩ | ⟨-, hlt, hlt'⟩
          · rw [if_neg (by omega), if_neg (by omega)]
            exact .ok states nexts (by simpa using reads [] hM)
          · rw [if_pos hlt, if_pos hlt']
            exact (ih _ (by omega) nexts (viable_behind hv reads) states rfl).prepend reads

theorem many_follows (hp : w.Follows L p p') :
    w.Follows (Repeated L) (many w.left p) (many w.right p') := by
  refine rounds_follows (repeated_nil L) fun us o o' s s' δ δ' hroom ho hv hs => ?_
  have h := hp hroom ho (fun u hu => hv u (repeated_singleton hu)) hs
  unfold manyRound
  generalize p o s = out at h
  generalize p' o' s' = out' at h
  cases h with
  | miss states => exact .nothing ho (states.restore hs) (repeated_nil L)
  | fatal => exact .fail
  | @ok ys next next' t t' states stops reads =>
      simp only
      rcases ho.advance stops with ⟨-, rfl, rfl⟩ | ⟨-, hlt, hlt'⟩
      · rw [if_neg (Nat.lt_irrefl _), if_neg (Nat.lt_irrefl _)]
        exact .nothing ho (states.restore hs) (repeated_nil L)
      · rw [if_pos hlt.1, if_pos hlt'.1]
        exact .again states stops fun v hmem => hmem.cons reads

theorem separatedRound_follows (hp : w.Follows L p p') (separator : TokenKind) :
    w.Follows (Further L separator)
      (rounds w.left.source.size (separatedRound w.left p separator))
      (rounds w.right.source.size (separatedRound w.right p' separator)) := by
  refine rounds_follows (further_nil L separator) fun us o o' s s' δ δ' hroom ho hv hs => ?_
  have hseparator : w.SameStep us (· = [separator]) δ δ' (expect w.left separator o s)
      (expect w.right separator o' s') :=
    w.token_follows (fun _ _ _ _ _ => Edit.moves_pure) hroom ho
      (fun u hu => hv u (hu ▸ further_separator L separator)) hs
  unfold separatedRound
  generalize expect w.left separator o s = out at hseparator
  generalize expect w.right separator o' s' = out' at hseparator
  cases hseparator with
  | miss states =>
      exact .nothing ho states (further_nil L separator)
  | fatal => exact .fail
  | @ok ys next next' t t' states nexts hk =>
      have hcont : ∀ u, L u → Further L separator (ys.map Lexeme.kind ++ u) := by
        intro u hu
        rw [hk]
        exact further_singleton hu separator
      have h := hp hroom nexts (viable_behind hv hcont) states
      simp only
      generalize p next t = out at h
      generalize p' next' t' = out' at h
      cases h with
      | miss states' =>
          exact .stop (states'.restore states) nexts (hk ▸ further_separator L separator)
      | fatal => exact .fail
      | @ok zs stop stop' t t' states' stops reads =>
          rw [List.append_assoc] at stops
          refine .again states' stops fun v hmem => ?_
          rw [List.map_append, hk]
          exact hmem.cons reads

theorem separated_follows (hp : w.Follows L p p') (separator : TokenKind) :
    w.Follows (Separated L separator) (separated w.left p separator)
      (separated w.right p' separator) := by
  intro us o o' s s' δ δ' hroom ho hv hs
  have h := hp hroom ho (fun u hu => hv u (separated_singleton hu separator)) hs
  unfold separated
  generalize p o s = out at h
  generalize p' o' s' = out' at h
  cases h with
  | miss states =>
      exact .nothing ho (states.restore hs) (.inl rfl)
  | fatal => exact .fatal
  | @ok ys next next' t t' states stops reads =>
      have hcont : ∀ v, Further L separator v → Separated L separator (ys.map Lexeme.kind ++ v) :=
        fun v hmem => hmem.separated reads
      exact (separatedRound_follows hp separator hroom stops (viable_behind hv hcont)
        states).prepend hcont

/-! ## Nodes -/

theorem child_follows {attach : Node → Edit} (hp : w.Follows L p p') (hL : ∀ v, L v → v ≠ [])
    (hattach : ∀ (f : Span → Span) (n : Node), Edit.Moves f (attach n) (attach (n.relocate f))) :
    w.Follows L (child w.left p attach) (child w.right p' attach) := by
  intro us o o' s s' δ δ' hroom ho hv hs
  obtain ⟨hdraft, rfl, rfl⟩ := hs
  rcases Nat.lt_or_ge s.progress.depth w.left.limits.maxDepth with hdeeper | hfull
  · have h : w.SameStep us L (s.progress.depth + 1) (s'.progress.depth + 1)
        (p o ⟨.blank, s.progress.deeper⟩) (p' o' ⟨.blank, s'.progress.deeper⟩) :=
      hp (by omega) ho hv ⟨Draft.relocate_blank.symm, rfl, rfl⟩
    have hleave {t : Progress} {δ : Nat} (ht : t.depth = δ + 1) : t.leave.depth = δ := by
      rw [Progress.leave, ht]
      rfl
    rw [child_of_room hdeeper, child_of_room (by omega)]
    generalize p o ⟨.blank, s.progress.deeper⟩ = out at h
    generalize p' o' ⟨.blank, s'.progress.deeper⟩ = out' at h
    cases h with
    | @ok ys stop stop' t t' states stops reads =>
        have hspan := ho.spanOf stops (fun hnil => hL _ reads (by rw [hnil]; rfl))
        have hnode : t'.draft.finish (w.right.source.spanOf o' stop') =
            (t.draft.finish (w.left.source.spanOf o stop)).relocate w.place := by
          rw [hspan, states.draft, Draft.relocate_finish]
        refine SameState.settle ⟨hdraft, hleave states.depth, hleave states.depth'⟩ ?_ stops reads
        have := hattach w.place (t.draft.finish (w.left.source.spanOf o stop))
        rwa [← hnode] at this
    | miss states => exact .miss ⟨hdraft, hleave states.depth, hleave states.depth'⟩
    | fatal => exact .fatal
  · rw [child_of_full hfull]
    exact .fatal

/-! ## Patterns and the grammar -/

/-- A pattern that takes no interest in where things are or where they end does on the right
what it does on the left, if what it refers to does. -/
theorem run_follows {ν : Type} {E : ParseError.Cause → Prop} {R : ν → List TokenKind → Prop}
    {env env' : ν → Matcher} (hR : ∀ n, ∃ v, R n v)
    (henv : ∀ n, w.Follows (R n) (env n) (env' n)) {p : Pattern ν} (h : p.Honest E)
    (hnatural : p.Natural) (hlocal : p.Local R) :
    w.Follows (p.Spells R) (p.run w.left env) (p.run w.right env') := by
  induction p with
  | token kind note => exact w.token_follows hnatural
  | endOfInput => exact hlocal.elim
  | done => exact done_follows
  | never => exact h.elim
  | andThen p q ihp ihq =>
      exact andThen_follows (ihp h.1 hnatural.1 hlocal.1) (ihq h.2 hnatural.2 hlocal.2)
        (h.2.spells hR)
  | orElse p q ihp ihq =>
      rcases h.2 with hq | rfl
      · exact orElse_follows (ihp h.1 hnatural.1 hlocal.1) (ihq hq hnatural.2 hlocal.2)
      · exact orElse_follows (ihp h.1 hnatural.1 hlocal.1) never_follows
  | optional p ih => exact optional_follows (ih h hnatural hlocal)
  | many p ih => exact many_follows (ih h hnatural hlocal)
  | separated item separator ih => exact separated_follows (ih h hnatural hlocal) separator
  | ahead p _ => exact hlocal.elim
  | child p attach ih =>
      exact child_follows (ih h.1 hnatural.1 hlocal.1) hlocal.2 hnatural.2
  | andEdit p edit ih => exact andEdit_follows (ih h.1 hnatural.1 hlocal) hnatural.2
  | ref name => exact henv name

/-- A matcher of values with no fewer levels follows one on the left. -/
theorem valueWithin_follows (w : Copy) {levels levels' : Nat} (hle : levels ≤ levels') :
    w.Follows IsValue (Grammar.valueWithin w.left levels)
      (Grammar.valueWithin w.right levels') := by
  induction levels generalizing levels' with
  | zero => exact fun _ _ _ _ _ _ _ _ _ _ _ => .fatal
  | succ levels ih =>
      obtain ⟨more, rfl⟩ := Nat.exists_eq_add_of_le' hle
      have hrun := run_follows (w := w) (R := fun _ : Nonterminal => IsValue)
        Grammar.exists_isValue (fun _ => ih (Nat.le_add_left levels more))
        (Grammar.value_honest (E := (·.isFatal = true)) Grammar.ref_honest)
        (Grammar.value_natural Grammar.ref_natural) Grammar.value_local
      exact hrun.mono fun v hv => isValue_of_spells (fun _ => id) hv

/-- A chain of names is a value, and is followed as one. -/
theorem identifierChain_follows (w : Copy) {levels levels' : Nat} (hle : levels ≤ levels') :
    w.Follows IsValue
      ((Grammar.identifierChain : Pattern Nonterminal).run w.left
        fun _ => Grammar.valueWithin w.left levels)
      ((Grammar.identifierChain : Pattern Nonterminal).run w.right
        fun _ => Grammar.valueWithin w.right levels') := by
  have hrun := run_follows (w := w) (R := fun _ : Nonterminal => IsValue)
    Grammar.exists_isValue (fun _ => w.valueWithin_follows hle)
    (Grammar.identifierChain_honest (E := (·.isFatal = true)))
    Grammar.identifierChain_natural Grammar.identifierChain_local
  refine hrun.mono fun v hv => ?_
  obtain ⟨n, rfl⟩ := Grammar.spells_identifierChain hv
  exact .chain n

/-- If the value is read on the left, it is read on the right. -/
theorem Follows.ok (h : w.Follows IsValue p p')
    (hroom : w.left.limits.maxDepth + δ' ≤ w.right.limits.maxDepth + δ)
    (hs : w.SameState δ δ' s s') (hrun : p w.start s = .ok w.stop t) :
    ∃ t', p' w.start' s' = .ok w.stop' t' ∧ w.SameState δ δ' t t' := by
  have hsame := h hroom w.abreast_start (fun v hv => ⟨[], by simpa using hv⟩) hs
  rw [hrun] at hsame
  generalize p' w.start' s' = out' at hsame
  cases hsame with
  | ok states stops reads =>
      -- the same tokens end in one place only
      rw [List.nil_append] at stops
      obtain ⟨rfl, -⟩ := stops.left.eq_of_skipBlanks_eq w.path_left rfl
      obtain ⟨-, rfl⟩ := stops.right.eq_of_length_eq w.path_right rfl
      exact ⟨_, rfl, states⟩

theorem valueWithin_ok (w : Copy) {levels levels' : Nat} (hle : levels ≤ levels')
    (hroom : w.left.limits.maxDepth + δ' ≤ w.right.limits.maxDepth + δ)
    (hs : w.SameState δ δ' s s')
    (h : Grammar.valueWithin w.left levels w.start s = .ok w.stop t) :
    ∃ t', Grammar.valueWithin w.right levels' w.start' s' = .ok w.stop' t' ∧
      t'.draft = t.draft.relocate w.place := by
  obtain ⟨t', hrun, states⟩ := (w.valueWithin_follows hle).ok hroom hs h
  exact ⟨t', hrun, states.draft⟩

/-- What is made of the value lies in the same place on both sides. -/
theorem spanOf_whole (w : Copy) :
    w.right.source.spanOf w.start' w.stop' = w.place (w.left.source.spanOf w.start w.stop) := by
  have hall : w.Abreast ([] ++ w.xs) w.stop w.stop' :=
    ⟨List.prefix_rfl, w.path_left, w.path_right⟩
  exact w.abreast_start.spanOf hall (Grammar.ne_nil_of_isValue w.value)

end Copy

end WeLang
