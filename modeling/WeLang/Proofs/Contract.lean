import WeLang.Parse
import WeLang.Proofs.Path

/-!
# What every matcher keeps to

Whatever a pattern is made of, its matcher keeps to a contract. A match ends at
or behind where it started and not behind the end of the source. A miss is from
where the matcher started, and whatever it says is known to the furthest miss as
well, so nobody has to listen to misses who looks at the progress in the end
(`errorOf_miss`). And in any case the parse has only got further: the depth is
what it was, and attempts, warnings and the furthest miss have at most grown.

The pattern that is never there keeps to the contract in all but one point: it
misses without telling anyone. That does no harm at the end of a choice, where
something else has been tried before, and it is only there that `Honest` allows
it.

Errors are not interpreted here. `Honest` asks that the changes of a draft which
a pattern makes are only ever refused for causes of a given sort, and then the
pattern fails for no other cause.
-/

namespace WeLang

variable {cx : Context} {start next stop : Nat} {s t u : State}

/-! ## Progress only grows -/

/-- Whether the furthest miss is further than a miss, or as far and wants all that
it wants. -/
def Progress.Covers (p : Progress) (m : Miss) : Prop :=
  ∃ f, p.furthest = some f ∧
    (m.offset < f.offset ∨ m.offset = f.offset ∧ ∀ k, k ∈ m.expected → k ∈ f.expected)

/-- What has come of a parse later on. -/
structure Progress.Later (p q : Progress) : Prop where
  depth : q.depth = p.depth
  attempts : p.attempts ≤ q.attempts
  warnings : ∃ more, q.warnings = p.warnings ++ more
  covers : ∀ {m}, p.Covers m → q.Covers m

namespace Miss

theorem mem_merge {m n : Miss} {k : TokenKind} :
    k ∈ (m.merge n).expected ↔
      n.offset ≤ m.offset ∧ k ∈ m.expected ∨ m.offset ≤ n.offset ∧ k ∈ n.expected := by
  rw [merge, rebase]
  split
  · next h =>
      have : ¬ n.offset ≤ m.offset := by omega
      simp [this, Nat.le_of_lt h]
  · next h =>
      split
      · next h' =>
          have : ¬ m.offset ≤ n.offset := by omega
          simp [this, Nat.le_of_lt h']
      · next h' =>
          have : m.offset = n.offset := by omega
          simp [this]

theorem merge_expected_of_covers {m f : Miss} (h : m.offset < f.offset ∨
    m.offset = f.offset ∧ ∀ k, k ∈ m.expected → k ∈ f.expected) :
    (m.merge f).offset = f.offset ∧ (m.merge f).expected = f.expected := by
  constructor
  · rw [offset_merge]
    omega
  · apply TokenSet.ext
    intro k
    rw [mem_merge]
    rcases h with h | ⟨h, hsub⟩
    · have : ¬ f.offset ≤ m.offset := by omega
      simp [this, Nat.le_of_lt h]
    · simp only [h, Nat.le_refl, true_and]
      exact ⟨fun hk => hk.elim (hsub k) id, .inr⟩

end Miss

namespace Progress

variable {p q r : Progress} {m n : Miss}

theorem Covers.mono (h : p.Covers m) (hle : n.offset < m.offset ∨
    n.offset = m.offset ∧ ∀ k, k ∈ n.expected → k ∈ m.expected) : p.Covers n := by
  obtain ⟨f, hf, h⟩ := h
  refine ⟨f, hf, ?_⟩
  rcases h with h | ⟨h, hsub⟩
  · exact .inl (by omega)
  · rcases hle with hlt | ⟨heq, hsub'⟩
    · exact .inl (by omega)
    · exact .inr ⟨by omega, fun k hk => hsub k (hsub' k hk)⟩

/-- What is known of two misses is known of what they say together. -/
theorem Covers.merge (hm : p.Covers m) (hn : p.Covers n) : p.Covers (m.merge n) := by
  obtain ⟨f, hf, hm⟩ := hm
  obtain ⟨g, hg, hn⟩ := hn
  obtain rfl := Option.some.inj (hf.symm.trans hg)
  refine ⟨f, hf, ?_⟩
  rw [Miss.offset_merge]
  by_cases hlt : max m.offset n.offset < f.offset
  · exact .inl hlt
  · refine .inr ⟨by omega, fun k hk => ?_⟩
    rcases Miss.mem_merge.1 hk with ⟨hle, hk⟩ | ⟨hle, hk⟩
    · exact (hm.resolve_left (by omega)).2 k hk
    · exact (hn.resolve_left (by omega)).2 k hk

theorem covers_noteMiss (p : Progress) (start offset : Nat) (expected : TokenSet) :
    (p.noteMiss offset expected).Covers ⟨start, offset, expected⟩ := by
  refine ⟨_, rfl, ?_⟩
  cases p.furthest with
  | none => exact .inr ⟨rfl, fun _ hk => hk⟩
  | some seen =>
      simp only [Miss.offset_merge]
      by_cases hlt : offset < seen.offset
      · exact .inl (by omega)
      · exact .inr ⟨by omega, fun k hk => Miss.mem_merge.2 (.inr ⟨by simp only; omega, hk⟩)⟩

namespace Later

theorem refl (p : Progress) : p.Later p :=
  ⟨rfl, Nat.le_refl _, ⟨#[], by simp⟩, id⟩

theorem trans (h : p.Later q) (h' : q.Later r) : p.Later r := by
  obtain ⟨more, hmore⟩ := h.warnings
  obtain ⟨more', hmore'⟩ := h'.warnings
  exact ⟨h'.depth.trans h.depth, Nat.le_trans h.attempts h'.attempts,
    ⟨more ++ more', by rw [hmore', hmore, Array.append_assoc]⟩, fun hm => h'.covers (h.covers hm)⟩

theorem noteMiss (p : Progress) (offset : Nat) (expected : TokenSet) :
    p.Later (p.noteMiss offset expected) := by
  refine ⟨rfl, Nat.le_refl _, ⟨#[], by simp [Progress.noteMiss]⟩, ?_⟩
  intro m h
  obtain ⟨f, hf, h⟩ := h
  refine Covers.mono (m := f) ⟨_, rfl, ?_⟩ h
  simp only [hf, Miss.offset_merge]
  by_cases hlt : f.offset < offset
  · exact .inl (by omega)
  · exact .inr ⟨by omega, fun k hk => Miss.mem_merge.2 (.inl ⟨by simp only; omega, hk⟩)⟩

theorem spend (p : Progress) : p.Later p.spend :=
  ⟨rfl, Nat.le_succ _, ⟨#[], by simp [Progress.spend]⟩, id⟩

theorem noteCollision (p : Progress) (cx : Context) (kind : TokenKind) (span : Span) :
    p.Later (p.noteCollision cx kind span) := by
  rw [Progress.noteCollision]
  split
  · exact refl p
  · split
    · exact refl p
    · exact ⟨rfl, Nat.le_refl _, ⟨#[_], rfl⟩, id⟩

end Later

end Progress

/-! ## The contract -/

/-- An outcome as a matcher that started at `start` in `s` may have. -/
inductive Kept (cx : Context) (E : ParseError.Cause → Prop) (start : Nat) (s : State) :
    Step → Prop
  | ok {stop : Nat} {t : State} (le : start ≤ stop) (bound : stop ≤ max start cx.source.size)
      (later : s.progress.Later t.progress) : Kept cx E start s (.ok stop t)
  | miss {m : Miss} {t : State} (start_eq : m.start = start) (le : start ≤ m.offset)
      (bound : m.offset ≤ max start cx.source.size) (covers : t.progress.Covers m)
      (later : s.progress.Later t.progress) : Kept cx E start s (.error (.miss m) t)
  | fatal {e : ParseError} {t : State} (cause : E e.cause)
      (later : s.progress.Later t.progress) : Kept cx E start s (.error (.fatal e) t)

/-- A matcher that keeps to the contract and fails for no other causes. -/
def Matcher.Lawful (cx : Context) (E : ParseError.Cause → Prop) (p : Matcher) : Prop :=
  ∀ start s, Kept cx E start s (p start s)

/-- Causes among which are those for which a token or a child may be refused. -/
structure Refusals (cx : Context) (E : ParseError.Cause → Prop) : Prop where
  steps : ∀ limit ∈ cx.limits.maxSteps, E (.stepLimitExceeded limit)
  literal : E .unterminatedLiteral
  depth : E (.nestingTooDeep cx.limits.maxDepth)

/-- A change of a draft that is only ever refused for certain causes. -/
def Edit.RefusedFor (E : ParseError.Cause → Prop) (edit : Edit) : Prop :=
  ∀ d e d', edit d = .error e d' → E e.cause

/-- A pattern that only ever ends a choice with what is never there, and whose
changes of a draft are refused for no other causes. -/
def Pattern.Honest {ν : Type} (E : ParseError.Cause → Prop) : Pattern ν → Prop
  | .token _ note => ∀ x, (note x).RefusedFor E
  | .endOfInput | .done | .ref _ => True
  | .never => False
  | .andThen p q => p.Honest E ∧ q.Honest E
  | .orElse p q => p.Honest E ∧ (q.Honest E ∨ q = .never)
  | .optional p | .many p | .ahead p => p.Honest E
  | .separated item _ => item.Honest E
  | .child p attach => p.Honest E ∧ ∀ n, (attach n).RefusedFor E
  | .andEdit p edit => p.Honest E ∧ ∀ d, (edit d).RefusedFor E

variable {E : ParseError.Cause → Prop}

theorem Edit.RefusedFor.pure : Edit.RefusedFor E (pure ()) :=
  fun _ _ _ h => nomatch h

theorem Edit.RefusedFor.modify (f : Draft → Draft) : Edit.RefusedFor E (modify f) :=
  fun _ _ _ h => nomatch h

namespace Kept

theorem later {out : Step} (h : Kept cx E start s out) :
    s.progress.Later (match out with | .ok _ t | .error _ t => t.progress) := by
  cases h with
  | ok _ _ later => exact later
  | miss _ _ _ _ later => exact later
  | fatal _ later => exact later

theorem settle {edit : Edit} (he : edit.RefusedFor E)
    (le : start ≤ stop) (bound : stop ≤ max start cx.source.size)
    (later : u.progress.Later s.progress) : Kept cx E start u (s.settle edit stop) := by
  rw [State.settle]
  split
  · exact .ok le bound later
  · next h => exact .fatal (he _ _ _ h) later

end Kept

namespace Matcher.Lawful

variable {p : Matcher}

/-- What a match of a matcher that keeps to the contract has come to. -/
theorem of_ok (hp : Lawful cx E p) (hrun : p start s = .ok stop t) :
    start ≤ stop ∧ stop ≤ max start cx.source.size ∧ s.progress.Later t.progress := by
  have hkept := hp start s
  rw [hrun] at hkept
  cases hkept with
  | ok le bound later => exact ⟨le, bound, later⟩

theorem of_error (hp : Lawful cx E p) {f : Failure} (hrun : p start s = .error f t) :
    s.progress.Later t.progress := by
  have hkept := hp start s
  rw [hrun] at hkept
  exact hkept.later

end Matcher.Lawful

/-- One level further in. -/
def Progress.deeper (p : Progress) : Progress :=
  { p with depth := p.depth + 1 }

namespace Matcher

variable {p q : Matcher}

theorem token_lawful (hE : Refusals cx E) {kind : TokenKind} {note : Lexeme → Edit}
    (hn : ∀ x, (note x).RefusedFor E) : Lawful cx E (token cx kind note) := by
  intro start s
  have h := cx.lexed kind start s.progress
  rw [token]
  generalize cx.lex kind start s.progress = out at h
  cases h with
  | found here _ =>
      obtain ⟨hle, hlt, hsize, _⟩ := Source.lexeme?_bounds here
      exact .settle (hn _) (by omega) (by omega)
        ((Progress.Later.spend _).trans (.noteCollision ..))
  | missing _ =>
      have hle := cx.source.le_skipBlanks start
      have hbound := cx.source.skipBlanks_le start
      exact .miss rfl hle hbound (Progress.covers_noteMiss ..)
        ((Progress.Later.spend _).trans (.noteMiss ..))
  | unclosed _ _ => exact .fatal hE.literal (.spend _)
  | exhausted spent =>
      exact .fatal (hE.steps _ (Option.eq_some_of_filter_eq_some spent)) (.spend _)

/-- The end of the source is where only blanks are left. -/
theorem endOfInput_eq (cx : Context) (start : Nat) (s : State) :
    endOfInput cx start s =
      if cx.source.isSpent start then .ok (cx.source.skipBlanks start) s
      else .error (.miss ⟨start, cx.source.skipBlanks start, ∅⟩)
        { s with progress := s.progress.noteMiss (cx.source.skipBlanks start) ∅ } := by
  rw [endOfInput, Context.expectEnd, Source.isSpent]
  simp only [decide_eq_true_eq]
  split
  · next h =>
      split at h
      · cases h
      · next hend =>
          cases h
          rw [if_pos (by omega)]
  · next h =>
      split at h
      · next hleft =>
          cases h
          rw [if_neg (by omega)]
      · cases h

theorem endOfInput_lawful : Lawful cx E (endOfInput cx) := by
  intro start s
  have hle := cx.source.le_skipBlanks start
  have hbound := cx.source.skipBlanks_le start
  rw [endOfInput_eq]
  split
  · next hend =>
      simp only [Source.isSpent, decide_eq_true_eq] at hend
      exact .ok hle (by omega) (.refl _)
  · exact .miss rfl hle hbound (Progress.covers_noteMiss ..) (.noteMiss ..)

theorem done_lawful : Lawful cx E done :=
  fun _ _ => .ok (Nat.le_refl _) (Nat.le_max_left ..) (.refl _)

theorem andThen_lawful (hp : Lawful cx E p) (hq : Lawful cx E q) : Lawful cx E (andThen p q) := by
  intro start s
  have h := hp start s
  rw [andThen]
  generalize p start s = out at h
  cases h with
  | fatal cause later => exact .fatal cause later
  | miss start_eq le bound covers later => exact .miss rfl le bound covers later
  | @ok next t le bound later =>
      have h' := hq next t
      simp only
      generalize q next t = out at h'
      cases h' with
      | ok le' bound' later' => exact .ok (by omega) (by omega) (later.trans later')
      | miss start_eq le' bound' covers later' =>
          refine .miss rfl ?_ ?_ covers (later.trans later') <;>
            · simp only [Miss.rebase]
              omega
      | fatal cause later' => exact .fatal cause (later.trans later')

/-- A miss that was made known is still known when it is merged with the miss of
something that got nowhere. -/
theorem covers_nothing_merge {m : Miss} {p : Progress} (hm : p.Covers m) (le : start ≤ m.offset) :
    p.Covers ((Miss.nothing start).merge m) := by
  refine hm.mono ?_
  rw [Miss.offset_merge]
  refine .inr ⟨Nat.max_eq_right le, fun k hk => ?_⟩
  rcases Miss.mem_merge.1 hk with ⟨_, hk⟩ | ⟨_, hk⟩
  · exact absurd hk (TokenSet.not_mem_empty k)
  · exact hk

theorem orElse_lawful (hp : Lawful cx E p) (hq : Lawful cx E q) : Lawful cx E (orElse p q) := by
  intro start s
  have h := hp start s
  rw [orElse]
  generalize p start s = out at h
  cases h with
  | ok le bound later => exact .ok le bound later
  | fatal cause later => exact .fatal cause later
  | @miss m after start_eq le bound covers later =>
      have h' := hq start (after.restore s.draft.mark)
      simp only
      generalize q start (after.restore s.draft.mark) = out at h'
      cases h' with
      | ok le' bound' later' => exact .ok le' bound' (later.trans later')
      | fatal cause later' => exact .fatal cause (later.trans later')
      | miss start_eq' le' bound' covers' later' =>
          refine .miss ?_ ?_ ?_ ?_ (later.trans later')
          · rw [Miss.start_merge, Miss.start_merge, Miss.nothing]
          · simp only [Miss.offset_merge, Miss.nothing]
            omega
          · simp only [Miss.offset_merge, Miss.nothing]
            omega
          · exact (covers_nothing_merge (later'.covers covers) le).merge covers'

theorem orElse_never_lawful (hp : Lawful cx E p) : Lawful cx E (orElse p never) := by
  intro start s
  have h := hp start s
  rw [orElse]
  generalize p start s = out at h
  cases h with
  | ok le bound later => exact .ok le bound later
  | fatal cause later => exact .fatal cause later
  | @miss m after start_eq le bound covers later =>
      refine .miss ?_ ?_ ?_ ?_ later
      · rw [Miss.start_merge, Miss.start_merge, Miss.nothing]
      · simp only [Miss.offset_merge, Miss.nothing]
        omega
      · simp only [Miss.offset_merge, Miss.nothing]
        omega
      · refine (covers_nothing_merge covers le).mono ?_
        simp only [Miss.offset_merge, Miss.nothing]
        refine .inr ⟨by omega, fun k hk => ?_⟩
        rcases Miss.mem_merge.1 hk with ⟨_, hk⟩ | ⟨_, hk⟩
        · exact hk
        · exact absurd hk (TokenSet.not_mem_empty k)

theorem optional_lawful (hp : Lawful cx E p) : Lawful cx E (optional p) := by
  intro start s
  have h := hp start s
  rw [optional]
  generalize p start s = out at h
  cases h with
  | ok le bound later => exact .ok le bound later
  | fatal cause later => exact .fatal cause later
  | miss _ _ _ _ later => exact .ok (Nat.le_refl _) (Nat.le_max_left ..) later

theorem ahead_lawful (hp : Lawful cx E p) : Lawful cx E (ahead p) := by
  intro start s
  have h := hp start s
  rw [ahead]
  generalize p start s = out at h
  cases h with
  | ok le bound later => exact .ok (Nat.le_refl _) (Nat.le_max_left ..) later
  | fatal cause later => exact .fatal cause later
  | miss start_eq le bound covers later => exact .miss start_eq le bound covers later

/-! ## Repetitions -/

/-- A round that ends as a lawful matcher may end, and does not miss. -/
inductive RoundKept (cx : Context) (E : ParseError.Cause → Prop) (pos : Nat) (s : State) :
    Round → Prop
  | again {next : Nat} {t : State} (le : pos ≤ next) (bound : next ≤ max pos cx.source.size)
      (later : s.progress.Later t.progress) : RoundKept cx E pos s (.again next t)
  | stop {stop : Nat} {t : State} (le : pos ≤ stop) (bound : stop ≤ max pos cx.source.size)
      (later : s.progress.Later t.progress) : RoundKept cx E pos s (.stop stop t)
  | fail {e : ParseError} {t : State} (cause : E e.cause)
      (later : s.progress.Later t.progress) : RoundKept cx E pos s (.fail e t)

/-- A repetition is there as often as it is there, and so it never misses. -/
theorem rounds_ne_miss {size : Nat} {round : Nat → State → Round} {pos : Nat} {s t : State}
    {m : Miss} : rounds size round pos s ≠ .error (.miss m) t := by
  refine rounds_induction (motive := fun _ _ out => out ≠ .error (.miss m) t) ?_ ?_ ?_ ?_ pos s
  · exact fun _ h => nomatch h
  · exact fun _ h => nomatch h
  · exact fun _ _ h => nomatch h
  · exact fun _ _ _ ih => ih

/-- Rounds that keep to the contract from where they start keep to it from before. -/
theorem rounds_kept_after {round : Nat → State → Round} (le : start ≤ next)
    (bound : next ≤ max start cx.source.size) (later : s.progress.Later t.progress)
    (h : Kept cx E next t (rounds cx.source.size round next t)) :
    Kept cx E start s (rounds cx.source.size round next t) := by
  cases hrest : rounds cx.source.size round next t with
  | ok stop u =>
      rw [hrest] at h
      cases h with
      | ok le' bound' later' => exact .ok (by omega) (by omega) (later.trans later')
  | error f u =>
      rw [hrest] at h
      cases h with
      | miss => exact absurd hrest rounds_ne_miss
      | fatal cause later' => exact .fatal cause (later.trans later')

theorem rounds_kept {round : Nat → State → Round} (h : ∀ pos s, RoundKept cx E pos s (round pos s))
    (pos : Nat) (s : State) : Kept cx E pos s (rounds cx.source.size round pos s) := by
  refine rounds_induction (motive := fun pos s out => Kept cx E pos s out) ?_ ?_ ?_ ?_ pos s
  · intro pos s stop s' hr
    have := h pos s
    rw [hr] at this
    cases this with
    | stop le bound later => exact .ok le bound later
  · intro pos s e s' hr
    have := h pos s
    rw [hr] at this
    cases this with
    | fail cause later => exact .fatal cause later
  · intro pos s next s' hr _
    have := h pos s
    rw [hr] at this
    cases this with
    | again le bound later => exact .ok le bound later
  · intro pos s next s' hr _ _ ih
    have := h pos s
    rw [hr] at this
    cases this with
    | again le bound later => exact rounds_kept_after le bound later ih

theorem manyRound_kept (hp : Lawful cx E p) (pos : Nat) (s : State) :
    RoundKept cx E pos s (manyRound p pos s) := by
  have h := hp pos s
  rw [manyRound]
  generalize p pos s = out at h
  cases h with
  | ok le bound later =>
      simp only
      split
      · exact .again le bound later
      · exact .stop (Nat.le_refl _) (Nat.le_max_left ..) later
  | fatal cause later => exact .fail cause later
  | miss _ _ _ _ later => exact .stop (Nat.le_refl _) (Nat.le_max_left ..) later

theorem many_lawful (hp : Lawful cx E p) : Lawful cx E (many cx p) :=
  rounds_kept (manyRound_kept hp)

theorem separatedRound_kept (hE : Refusals cx E) (hp : Lawful cx E p) (separator : TokenKind)
    (pos : Nat) (s : State) : RoundKept cx E pos s (separatedRound cx p separator pos s) := by
  have h : Kept cx E pos s (token cx separator (fun _ => pure ()) pos s) :=
    token_lawful hE (fun _ => .pure) pos s
  rw [separatedRound, expect]
  generalize token cx separator (fun _ => pure ()) pos s = out at h
  cases h with
  | miss _ _ _ _ later => exact .stop (Nat.le_refl _) (Nat.le_max_left ..) later
  | fatal cause later => exact .fail cause later
  | @ok next t le bound later =>
      have h' := hp next t
      simp only
      generalize p next t = out at h'
      cases h' with
      | ok le' bound' later' => exact .again (by omega) (by omega) (later.trans later')
      | miss _ _ _ _ later' => exact .stop le bound (later.trans later')
      | fatal cause later' => exact .fail cause (later.trans later')

theorem separated_lawful (hE : Refusals cx E) (hp : Lawful cx E p) (separator : TokenKind) :
    Lawful cx E (separated cx p separator) := by
  intro start s
  have h := hp start s
  rw [separated]
  generalize p start s = out at h
  cases h with
  | miss _ _ _ _ later => exact .ok (Nat.le_refl _) (Nat.le_max_left ..) later
  | fatal cause later => exact .fatal cause later
  | @ok next t le bound later =>
      exact rounds_kept_after le bound later
        (rounds_kept (separatedRound_kept hE hp separator) next t)

/-! ## Nodes -/

theorem later_leave {p q : Progress} (h : p.deeper.Later q) : p.Later q.leave := by
  obtain ⟨depth, attempts, warnings, covers⟩ := h
  exact ⟨by simp [Progress.leave, Progress.deeper, depth], attempts, warnings, covers⟩

theorem build_of_full {p₀ : Progress} (h : cx.limits.maxDepth ≤ p₀.depth) :
    build cx p start p₀ = .error (.fatal (cx.tooDeep start)) p₀ := by
  have : ¬ p₀.depth < cx.limits.maxDepth := by omega
  simp only [build, Context.enter, this, if_false]

theorem build_of_room {p₀ : Progress} (h : p₀.depth < cx.limits.maxDepth) :
    build cx p start p₀ =
      match p start ⟨.blank, p₀.deeper⟩ with
      | .error f t => .error f t.progress.leave
      | .ok stop t =>
          let span : Span := ⟨min (cx.source.skipBlanks start) stop, stop⟩
          .ok (t.draft.finish span, stop) t.progress.leave := by
  have henter : cx.enter start p₀ = .ok () p₀.deeper := if_pos h
  cases hrun : p start ⟨.blank, p₀.deeper⟩ <;> simp only [build, henter, hrun]

theorem child_of_full {attach : Node → Edit} (h : cx.limits.maxDepth ≤ s.progress.depth) :
    child cx p attach start s = .error (.fatal (cx.tooDeep start)) s := by
  simp only [child, build_of_full h]

theorem child_of_room {attach : Node → Edit} (h : s.progress.depth < cx.limits.maxDepth) :
    child cx p attach start s =
      match p start ⟨.blank, s.progress.deeper⟩ with
      | .error f t => .error f { s with progress := t.progress.leave }
      | .ok stop t =>
          let span : Span := ⟨min (cx.source.skipBlanks start) stop, stop⟩
          State.settle { s with progress := t.progress.leave } (attach (t.draft.finish span))
            stop := by
  simp only [child, build_of_room h]
  cases p start ⟨.blank, s.progress.deeper⟩ <;> rfl

theorem child_lawful (hE : Refusals cx E) {attach : Node → Edit} (hp : Lawful cx E p)
    (ha : ∀ n, (attach n).RefusedFor E) :
    Lawful cx E (child cx p attach) := by
  intro start s
  rcases Nat.lt_or_ge s.progress.depth cx.limits.maxDepth with hroom | hfull
  · have h := hp start ⟨.blank, s.progress.deeper⟩
    rw [child_of_room hroom]
    generalize p start ⟨.blank, s.progress.deeper⟩ = out at h
    cases h with
    | ok le bound later => exact .settle (ha _) le bound (later_leave later)
    | miss start_eq le bound covers later =>
        exact .miss start_eq le bound covers (later_leave later)
    | fatal cause later => exact .fatal cause (later_leave later)
  · rw [child_of_full hfull]
    exact .fatal hE.depth (.refl _)

theorem andEdit_lawful {edit : Draft → Edit} (hp : Lawful cx E p)
    (he : ∀ d, (edit d).RefusedFor E) :
    Lawful cx E (andEdit p edit) := by
  intro start s
  have h := hp start s
  rw [andEdit]
  generalize p start s = out at h
  cases h with
  | ok le bound later => exact .settle (he _) le bound later
  | miss start_eq le bound covers later => exact .miss start_eq le bound covers later
  | fatal cause later => exact .fatal cause later

end Matcher

/-! ## Patterns -/

open Matcher in
/-- Every pattern keeps to the contract if what it refers to does. -/
theorem Pattern.run_lawful {ν : Type} (hE : Refusals cx E) {env : ν → Matcher}
    (henv : ∀ n, Lawful cx E (env n)) {p : Pattern ν} (h : p.Honest E) :
    Lawful cx E (p.run cx env) := by
  induction p with
  | token kind note => exact token_lawful hE h
  | endOfInput => exact endOfInput_lawful
  | done => exact done_lawful
  | never => exact h.elim
  | andThen p q ihp ihq => exact andThen_lawful (ihp h.1) (ihq h.2)
  | orElse p q ihp ihq =>
      rcases h.2 with hq | rfl
      · exact orElse_lawful (ihp h.1) (ihq hq)
      · exact orElse_never_lawful (ihp h.1)
  | optional p ih => exact optional_lawful (ih h)
  | many p ih => exact many_lawful (ih h)
  | separated item separator ih => exact separated_lawful hE (ih h) separator
  | ahead p ih => exact ahead_lawful (ih h)
  | child p attach ih => exact child_lawful hE (ih h.1) h.2
  | andEdit p edit ih => exact andEdit_lawful (ih h.1) h.2
  | ref name => exact henv name

/-! ## The grammar -/

/-- Whether a parse is broken off for a cause, and does not end because nothing
else could be tried. -/
def ParseError.Cause.isFatal : ParseError.Cause → Bool
  | .unexpectedToken .. | .unknownSymbol _ => false
  | .unterminatedLiteral | .duplicateKey _ | .integerOverflow _ | .invalidDigit .. |
    .nestingTooDeep _ | .stepLimitExceeded _ => true

theorem refusals_fatal (cx : Context) : Refusals cx (·.isFatal = true) :=
  ⟨fun _ _ => rfl, rfl, rfl⟩

/-- Causes among which are those for which the grammar refuses what it has read: a
numeral without a value, and a key that is there already. -/
class ContentRefusals (E : ParseError.Cause → Prop) : Prop where
  overflow : ∀ text, E (.integerOverflow text)
  digit : ∀ text radix, E (.invalidDigit text radix)
  key : ∀ key, E (.duplicateKey key)

instance : ContentRefusals (·.isFatal = true) :=
  ⟨fun _ => rfl, fun _ _ => rfl, fun _ => rfl⟩

theorem Numeral.value_eq_error [ContentRefusals E] {text : String} {c : ParseError.Cause}
    (h : Numeral.value text = .error c) : E c := by
  rw [Numeral.value] at h
  simp only at h
  split at h
  · cases h
    exact ContentRefusals.digit ..
  · split at h <;> cases h
    · exact ContentRefusals.overflow _
    · exact ContentRefusals.digit ..

theorem Draft.attachNumeral_refusedFor [ContentRefusals E] (text : String) (span : Span) :
    (Draft.attachNumeral text span).RefusedFor E := by
  intro d e d' h
  rw [Draft.attachNumeral] at h
  cases hvalue : Numeral.value text with
  | ok value =>
      rw [hvalue] at h
      cases h
  | error cause =>
      rw [hvalue] at h
      cases h
      exact Numeral.value_eq_error hvalue

theorem Draft.attachEntry_refusedFor [ContentRefusals E] (n : Node) :
    (Draft.attachEntry n).RefusedFor E := by
  intro d e d' h
  unfold Draft.attachEntry Draft.insertEntry at h
  simp only at h
  split at h
  · cases h
    exact ContentRefusals.key _
  · cases h

theorem Draft.attachUsing_refusedFor (n : Node) : (Draft.attachUsing n).RefusedFor E := by
  intro d e d' h
  rw [Draft.attachUsing] at h
  cases hp : n.payload <;>
    · rw [hp] at h
      cases h

namespace Pattern

variable {ν : Type} {ps : List (Pattern ν)}

theorem expect_honest (k : TokenKind) : (expect k : Pattern ν).Honest E :=
  fun _ => .pure

theorem firstOf_honest (hne : ps ≠ []) (h : ∀ p ∈ ps, p.Honest E) : (firstOf ps).Honest E := by
  induction ps with
  | nil => exact absurd rfl hne
  | cons p ps ih =>
      refine ⟨h p (List.mem_cons_self ..), ?_⟩
      cases ps with
      | nil => exact .inr rfl
      | cons q qs =>
          exact .inl (ih (List.cons_ne_nil _ _) fun r hr => h r (List.mem_cons_of_mem _ hr))

end Pattern

namespace Grammar

open Pattern

variable {ν : Type} {inner : Pattern ν}

theorem nested_honest (h : inner.Honest E) : (nested inner).Honest E :=
  ⟨h, fun _ => .modify _⟩

theorem entry_honest [ContentRefusals E] (h : inner.Honest E) : (entry inner).Honest E :=
  ⟨fun _ => .modify _, expect_honest _, ⟨h, Draft.attachEntry_refusedFor⟩, trivial⟩

theorem clause_honest (h : inner.Honest E) : (clause inner).Honest E :=
  ⟨nested_honest h, fun _ => .modify _⟩

theorem wrapped_honest (h : inner.Honest E) (m : Symbol) (w : Keyword) :
    (wrapped inner m w).Honest E :=
  ⟨⟨expect_honest _, .inl ⟨expect_honest _, .inr rfl⟩⟩, nested_honest h, trivial⟩

theorem list_honest (h : inner.Honest E) : (list inner).Honest E :=
  ⟨⟨expect_honest _, nested_honest h, expect_honest _, trivial⟩, fun _ => .modify _⟩

theorem map_honest [ContentRefusals E] (h : inner.Honest E) : (map inner).Honest E :=
  ⟨⟨expect_honest _, entry_honest h, expect_honest _, trivial⟩, fun _ => .modify _⟩

theorem signature_honest : (signature : Pattern ν).Honest E :=
  ⟨expect_honest _, fun _ => .modify _, fun _ => .modify _, expect_honest _, trivial⟩

theorem function_honest (h : inner.Honest E) : (function inner).Honest E :=
  ⟨⟨(expect_honest _ : (word .fnWord : Pattern ν).Honest E), expect_honest _, signature_honest,
    clause_honest h, ⟨expect_honest _, clause_honest h, trivial⟩, expect_honest _, trivial⟩,
    fun _ => .modify _⟩

theorem typeParameter_honest (h : inner.Honest E) : (typeParameter inner).Honest E :=
  ⟨⟨expect_honest _, nested_honest h, expect_honest _, nested_honest h, expect_honest _,
    nested_honest h, trivial⟩, fun _ => .modify _⟩

theorem typeAlias_honest (h : inner.Honest E) : (typeAlias inner).Honest E :=
  ⟨wrapped_honest h _ _, fun _ => .modify _⟩

theorem typeIdentity_honest (h : inner.Honest E) : (typeIdentity inner).Honest E :=
  ⟨wrapped_honest h _ _, fun _ => .modify _⟩

theorem discard_honest : (discard : Pattern ν).Honest E :=
  ⟨expect_honest _, fun _ => .modify _⟩

theorem integer_honest [ContentRefusals E] : (integer : Pattern ν).Honest E :=
  fun x => Draft.attachNumeral_refusedFor x.text x.span

theorem identifierChain_honest : (identifierChain : Pattern ν).Honest E :=
  ⟨⟨fun _ => .modify _, ⟨expect_honest _, fun _ => .modify _, trivial⟩, trivial⟩,
    fun _ => .modify _⟩

theorem string_honest : (string : Pattern ν).Honest E :=
  fun _ => .modify _

theorem value_honest [ContentRefusals E] (h : inner.Honest E) : (value inner).Honest E := by
  refine firstOf_honest (List.cons_ne_nil _ _) ?_
  simp only [List.forall_mem_cons, List.not_mem_nil, false_implies, implies_true, and_true]
  exact ⟨list_honest h, map_honest h, function_honest h, typeParameter_honest h,
    typeAlias_honest h, typeIdentity_honest h, discard_honest, integer_honest,
    identifierChain_honest, string_honest⟩

theorem useStatement_honest : (useStatement : Pattern ν).Honest E :=
  ⟨expect_honest _, ⟨identifierChain_honest, Draft.attachUsing_refusedFor⟩, trivial⟩

theorem module_honest [ContentRefusals E] (h : inner.Honest E) : («module» inner).Honest E :=
  ⟨⟨useStatement_honest, entry_honest h, trivial, trivial⟩, fun _ => .modify _⟩

theorem soleValue_honest [ContentRefusals E] (h : inner.Honest E) :
    (soleValue inner).Honest E :=
  ⟨value_honest h, trivial, trivial⟩

theorem ref_honest {E : ParseError.Cause → Prop} : (Pattern.ref Nonterminal.value).Honest E :=
  trivial

theorem valueWithin_lawful_of [ContentRefusals E] (hE : Refusals cx E) (levels : Nat) :
    Matcher.Lawful cx E (valueWithin cx levels) := by
  induction levels with
  | zero => exact fun _ _ => .fatal hE.depth (.refl _)
  | succ levels ih => exact run_lawful hE (fun _ => ih) (value_honest ref_honest)

theorem valueWithin_lawful (cx : Context) (levels : Nat) :
    Matcher.Lawful cx (·.isFatal = true) (valueWithin cx levels) :=
  valueWithin_lawful_of (refusals_fatal cx) levels

end Grammar

theorem Goal.matcher_lawful_of [ContentRefusals E] (hE : Refusals cx E) (goal : Goal) :
    Matcher.Lawful cx E (goal.matcher cx) := by
  have henv (n : Nonterminal) : Matcher.Lawful cx E (Grammar.meaning cx n) :=
    Grammar.valueWithin_lawful_of hE _
  cases goal with
  | module => exact Pattern.run_lawful hE henv (Grammar.module_honest trivial)
  | value => exact Pattern.run_lawful hE henv (Grammar.soleValue_honest trivial)

theorem Goal.matcher_lawful (goal : Goal) (cx : Context) :
    Matcher.Lawful cx (·.isFatal = true) (goal.matcher cx) :=
  goal.matcher_lawful_of (refusals_fatal cx)

/-! ## The error of a parse -/

namespace Parse

/-- What a parse ends in is what the matcher of its goal ends in on a blank draft,
unless not even one level is allowed. -/
theorem outcome_of_room {goal : Goal} (h : 0 < cx.limits.maxDepth) :
    outcome goal cx =
      match goal.matcher cx 0 ⟨.blank, Progress.none.deeper⟩ with
      | .error f t => .error f t.progress.leave
      | .ok stop t =>
          let span : Span := ⟨min (cx.source.skipBlanks 0) stop, stop⟩
          .ok (t.draft.finish span, stop) t.progress.leave :=
  Matcher.build_of_room h

theorem outcome_of_full {goal : Goal} (h : cx.limits.maxDepth = 0) :
    outcome goal cx = .error (.fatal (cx.tooDeep 0)) .none :=
  Matcher.build_of_full (by simp [h])

theorem run_of_outcome_ok {goal : Goal} {found : Node × Nat} {p : Progress}
    (h : outcome goal cx = .ok found p) :
    ∃ stop t, goal.matcher cx 0 ⟨.blank, Progress.none.deeper⟩ = .ok stop t ∧
      found = (t.draft.finish ⟨min (cx.source.skipBlanks 0) stop, stop⟩, stop) ∧
        p = t.progress.leave := by
  rcases Nat.eq_zero_or_pos cx.limits.maxDepth with hfull | hroom
  · rw [outcome_of_full hfull] at h
    cases h
  · rw [outcome_of_room hroom] at h
    split at h
    · cases h
    · next hrun =>
        cases h
        exact ⟨_, _, hrun, rfl, rfl⟩

/-- A parse fails because its matcher does, or because it has no room at all. -/
theorem run_of_outcome_error {goal : Goal} {f : Failure} {p : Progress}
    (h : outcome goal cx = .error f p) :
    (∃ t, goal.matcher cx 0 ⟨.blank, Progress.none.deeper⟩ = .error f t ∧
      p = t.progress.leave) ∨ f = .fatal (cx.tooDeep 0) := by
  rcases Nat.eq_zero_or_pos cx.limits.maxDepth with hfull | hroom
  · rw [outcome_of_full hfull] at h
    cases h
    exact .inr rfl
  · rw [outcome_of_room hroom] at h
    split at h
    · next hrun =>
        cases h
        exact .inl ⟨_, hrun, rfl⟩
    · cases h

theorem run_of_outcome_miss {goal : Goal} {m : Miss} {p : Progress}
    (h : outcome goal cx = .error (.miss m) p) :
    ∃ t, goal.matcher cx 0 ⟨.blank, Progress.none.deeper⟩ = .error (.miss m) t ∧
      p = t.progress.leave :=
  (run_of_outcome_error h).resolve_right fun heq => nomatch heq

theorem errorAt_congr {s : Source} {m n : Miss} (ho : m.offset = n.offset)
    (he : m.expected = n.expected) : errorAt s m = errorAt s n := by
  unfold errorAt
  rw [ho, he]

/-- A parse that ends in a miss is explained by the furthest miss alone. -/
theorem errorOf_miss {goal : Goal} {m : Miss} {p : Progress}
    (h : outcome goal cx = .error (.miss m) p) :
    ∃ f, p.furthest = some f ∧ errorOf cx.source p (.miss m) = errorAt cx.source f := by
  obtain ⟨t, hrun, rfl⟩ := run_of_outcome_miss h
  have hkept := goal.matcher_lawful cx 0 ⟨.blank, Progress.none.deeper⟩
  rw [hrun] at hkept
  cases hkept with
  | miss _ _ _ covers _ =>
      obtain ⟨f, hf, hcov⟩ := covers
      refine ⟨f, hf, ?_⟩
      obtain ⟨ho, he⟩ := Miss.merge_expected_of_covers hcov
      simp only [errorOf, Progress.leave, hf]
      exact errorAt_congr ho he

theorem cause_of_outcome [ContentRefusals E] (hE : Refusals cx E) {goal : Goal} {e : ParseError}
    {p : Progress} (h : outcome goal cx = .error (.fatal e) p) : E e.cause := by
  rcases run_of_outcome_error h with ⟨t, hrun, -⟩ | heq
  · have hkept := goal.matcher_lawful_of hE 0 ⟨.blank, Progress.none.deeper⟩
    rw [hrun] at hkept
    cases hkept with
    | fatal cause _ => exact cause
  · cases heq
    exact hE.depth

theorem isFatal_of_outcome {goal : Goal} {e : ParseError} {p : Progress}
    (h : outcome goal cx = .error (.fatal e) p) : e.cause.isFatal = true :=
  cause_of_outcome (refusals_fatal cx) h

end Parse

/-! ## Results -/

section Results

variable {goal : Goal} {src : Source} {l : Limits}

theorem parse_eq_ok {parsed : Parsed} :
    parse goal src l = .ok parsed ↔ ∃ found p, Parse.outcome goal ⟨src, l⟩ = .ok found p ∧
      parsed = ⟨found.1, p.warnings.toList⟩ := by
  rw [parse]
  cases Parse.outcome goal ⟨src, l⟩ <;> simp [eq_comm]

theorem parse_eq_error {e : ParseError} :
    parse goal src l = .error e ↔ ∃ f p, Parse.outcome goal ⟨src, l⟩ = .error f p ∧
      e = (Parse.errorOf src p f).locate src := by
  rw [parse]
  cases Parse.outcome goal ⟨src, l⟩ <;> simp [eq_comm]

end Results

end WeLang
