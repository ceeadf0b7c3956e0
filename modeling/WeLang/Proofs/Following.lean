import WeLang.Proofs.Reading

/-!
# Following a sentence

Let kinds of tokens be given that make up a sentence, and let a source agree with
them, either all the way or up to some token. What does the parser do? It reads
the source just as the sentence says it is to be read, without ever taking a
wrong turn for good, until the source parts from the sentence. There it asks,
among other things, for the kind that would have been next, and does not get it.
What it does afterwards is not known, but it cannot make the parser forget that
it has been there.

A source that never parts from a sentence is accepted, and that is one half of
the recognition theorem. One that does is rejected, and the kind that would have
been next is among those the error wants. That is one half of the theorem on
expectations. Both are read off the same statements, which are made here for
matchers in general.

`Trial.Follows` is the statement that a matcher reads some of the kinds on and
leaves the rest, and `Trial.Refuses` that it has no use for what is to come. They
are put together with one lemma for each way to put matchers together. Where
errors can be excluded, which is only asked for when there is no fork, both carry
a book: assertions about the draft before and after, and a proposition `good`
that an error would refute.
-/

namespace WeLang

/-- A context in which a parse is held against a sentence, and the miss that is to
be expected where the source parts from it. Without such a place the limits must
be no hindrance. -/
structure Trial where
  cx : Context
  fork? : Option Miss
  unlimited : fork? = none → cx.limits.maxSteps = none
  roomy : fork? = none → cx.source.size + 2 ≤ cx.limits.maxDepth

namespace Trial

variable {c : Trial} {o stop δ : Nat} {s t : State} {ks ws us vs rest : List TokenKind}

/-- The set of the kinds that a list begins with, of which there is at most one. -/
def first : List TokenKind → TokenSet
  | [] => ∅
  | k :: _ => .single k

/-- The tokens of the source from `o` on have the kinds `ks`, or they have up to
the fork. -/
inductive Tracks (c : Trial) : Nat → List TokenKind → Prop
  | spent {o : Nat} (h : c.cx.source.isSpent o = true) : Tracks c o []
  | token {o : Nat} {x : Lexeme} {ks : List TokenKind} (here : c.cx.source.lexeme? o = some x)
      (tail : Tracks c x.span.stop ks) : Tracks c o (x.kind :: ks)
  | parts {o : Nat} {ks : List TokenKind} {f : Miss} (fork : c.fork? = some f)
      (place : c.cx.source.skipBlanks o = f.offset) (wanted : f.expected = first ks)
      (absent : ∀ x, c.cx.source.lexeme? o = some x → ks.head? ≠ some x.kind)
      (more : ks = [] → c.cx.source.isSpent o = false) : Tracks c o ks

/-- The parse got past the fork, or it knows what would have been next there. -/
def Known (c : Trial) (p : Progress) : Prop :=
  ∃ f, c.fork? = some f ∧ p.Covers f

/-- The parse is past the fork, or it knows what would have been next there. -/
def Lost (c : Trial) (o : Nat) (p : Progress) : Prop :=
  ∃ f, c.fork? = some f ∧ (f.offset < o ∨ p.Covers f)

/-- The ways in which a matcher may end: as it should, which is `K` for a match
and `M` for a miss, or beyond the fork, or with an error. -/
inductive Ends (c : Trial) (good : Prop) (K : Nat → State → Prop) (M : State → Prop) : Step → Prop
  | ok {stop : Nat} {t : State} (h : K stop t) : Ends c good K M (.ok stop t)
  | miss {m : Miss} {t : State} (h : M t) : Ends c good K M (.error (.miss m) t)
  | lost {stop : Nat} {t : State} (h : c.Lost stop t.progress) : Ends c good K M (.ok stop t)
  | known {m : Miss} {t : State} (h : c.Known t.progress) : Ends c good K M (.error (.miss m) t)
  | fatal {e : ParseError} {t : State} (h : c.fork? = none → ¬ good) :
      Ends c good K M (.error (.fatal e) t)

/-- Assertions about where a matcher is and what its draft is then. -/
abbrev Assertion := Nat → Draft → Prop

/-- Matchers that keep to the contract, and fail only for what breaks off a
parse. -/
abbrev Lawful (c : Trial) (p : Matcher) : Prop :=
  Matcher.Lawful c.cx (·.isFatal = true) p

/-- At a depth of `δ`, the matcher reads `ws` and leaves `rest`. -/
structure Follows (c : Trial) (δ : Nat) (good : Prop) (p : Matcher) (ws rest : List TokenKind)
    (A B : Assertion) : Prop where
  lawful : c.Lawful p
  ends : ∀ {o s}, s.progress.depth = δ → c.Tracks o (ws ++ rest) →
    (c.fork? = none → A o s.draft) →
    c.Ends good (fun stop t => c.Tracks stop rest ∧ o + ws.length ≤ stop ∧
      (c.fork? = none → B stop t.draft)) (fun _ => False) (p o s)

/-- At a depth of `δ`, the matcher misses before `ws`, and its draft can be taken
back. -/
structure Refuses (c : Trial) (δ : Nat) (good : Prop) (p : Matcher) (ws : List TokenKind)
    (A : Assertion) : Prop where
  lawful : c.Lawful p
  ends : ∀ {o s}, s.progress.depth = δ → c.Tracks o ws → (c.fork? = none → A o s.draft) →
    c.Ends good (fun _ _ => False)
      (fun t => c.fork? = none → t.draft.restore s.draft.mark = s.draft) (p o s)

variable {good : Prop} {A B C : Assertion} {p q : Matcher} {K K' : Nat → State → Prop}
  {M M' : State → Prop}

/-! ## Beyond the fork -/

theorem Lost.fork (h : c.Lost o s.progress) : c.fork? ≠ none := by
  obtain ⟨f, hf, _⟩ := h
  simp [hf]

theorem Known.lost (h : c.Known s.progress) : c.Lost o s.progress := by
  obtain ⟨f, hf, hcov⟩ := h
  exact ⟨f, hf, .inr hcov⟩

theorem Ends.mono {out : Step} (h : c.Ends good K M out) (hK : ∀ stop t, K stop t → K' stop t)
    (hM : ∀ t, M t → M' t) : c.Ends good K' M' out := by
  cases h with
  | ok h => exact .ok (hK _ _ h)
  | miss h => exact .miss (hM _ h)
  | lost h => exact .lost h
  | known h => exact .known h
  | fatal h => exact .fatal h

/-- Whoever asks how a matcher ended may remember that it ended so. -/
theorem Ends.remember {out : Step} (h : c.Ends good K M out) :
    c.Ends good (fun stop t => K stop t ∧ out = .ok stop t) M out := by
  cases h with
  | ok h => exact .ok ⟨h, rfl⟩
  | miss h => exact .miss h
  | lost h => exact .lost h
  | known h => exact .known h
  | fatal h => exact .fatal h

/-- Nothing brings a matcher back from beyond the fork. -/
theorem Lost.ends (h : c.Lost o s.progress) (hp : c.Lawful p) : c.Ends good K M (p o s) := by
  have hkept := hp o s
  generalize p o s = out at hkept
  obtain ⟨f, hf, hpast⟩ := h
  cases hkept with
  | ok le _ later =>
      refine .lost ⟨f, hf, ?_⟩
      rcases hpast with hlt | hcov
      · exact .inl (by omega)
      · exact .inr (later.covers hcov)
  | miss _ le _ covers later =>
      refine .known ⟨f, hf, ?_⟩
      rcases hpast with hlt | hcov
      · exact covers.mono (.inl (by omega))
      · exact later.covers hcov
  | fatal _ _ =>
      refine .fatal fun hnone => ?_
      rw [hnone] at hf
      cases hf

/-! ## Tokens -/

theorem affords (c : Trial) (h : c.fork? = none) (p : Progress) : c.cx.Affords p :=
  Context.affords_of_unlimited (c.unlimited h) p

theorem not_exhausted (hnone : c.fork? = none) {p : Progress} {limit : Nat} :
    c.cx.limits.exceeded? p.spend.steps ≠ some limit := by
  intro h
  have := c.affords hnone p
  rw [Context.Affords] at this
  rw [this] at h
  cases h

/-- A token that is refused in the end, or whose draft is. -/
theorem settle_ends {edit : Edit} (hok : ∀ d', edit s.draft = .ok () d' →
      K stop { s with draft := d' })
    (hbad : c.fork? = none → ∀ e d', edit s.draft = .error e d' → ¬ good) :
    c.Ends good K M (s.settle edit stop) := by
  rw [State.settle]
  split
  · next h => exact .ok (hok _ h)
  · next h => exact .fatal fun hnone => hbad hnone _ _ h

theorem settle_lost {edit : Edit} (h : c.Lost stop s.progress) :
    c.Ends good K M (s.settle edit stop) := by
  have hfork := h.fork
  rw [State.settle]
  split
  · exact .lost h
  · exact .fatal fun hnone => absurd hnone hfork

/-- Asking for the kind that is next. -/
theorem token_follows {k : TokenKind} {note : Lexeme → Edit}
    (hnote : ∀ x, (note x).RefusedFor (·.isFatal = true))
    (hok : ∀ {o x d d'}, c.cx.source.lexeme? o = some x → x.kind = k → A o d →
      note x d = .ok () d' → B x.span.stop d')
    (hbad : ∀ {o x d e d'}, c.cx.source.lexeme? o = some x → x.kind = k → A o d →
      note x d = .error e d' → ¬ good) :
    c.Follows δ good (Matcher.token c.cx k note) [k] rest A B := by
  refine ⟨Matcher.token_lawful (refusals_fatal _) hnote, fun {o s} _ htrack hbook => ?_⟩
  have hlex := c.cx.lexed k o s.progress
  rw [Matcher.token]
  generalize c.cx.lex k o s.progress = out at hlex
  cases htrack with
  | token here tail =>
      cases hlex with
      | found here' hk =>
          obtain rfl := Option.some.inj (here.symm.trans here')
          refine settle_ends (fun d' hd => ⟨tail, ?_, fun hnone => ?_⟩) fun hnone e d' hd => ?_
          · obtain ⟨hle, hlt, _⟩ := Source.lexeme?_bounds here
            simp only [List.length_singleton]
            omega
          · exact hok here rfl (hbook hnone) hd
          · exact hbad here rfl (hbook hnone) hd
      | missing absent =>
          exact absurd (TokenKind.answers_of_matchAt (Source.lexeme?_eq_some.1 here).2.1) absent
      | unclosed _ opened => exact absurd opened (Source.not_openString_of_lexeme? here)
      | exhausted spent => exact .fatal fun hnone => absurd spent (not_exhausted hnone)
  | parts fork place wanted absent more =>
      cases hlex with
      | found here hk => exact absurd (by simp [hk]) (absent _ here)
      | missing =>
          refine .known ⟨_, fork, Progress.Covers.mono (Progress.covers_noteMiss _ o ..)
            (.inr ⟨place.symm, fun j hj => ?_⟩)⟩
          rw [wanted] at hj
          exact hj
      | unclosed =>
          refine .fatal fun hnone => ?_
          cases hnone.symm.trans fork
      | exhausted =>
          refine .fatal fun hnone => ?_
          cases hnone.symm.trans fork

/-- Asking for a kind that is not next leaves the draft alone. -/
theorem token_misses {k : TokenKind} {note : Lexeme → Edit} (htrack : c.Tracks o ws)
    (hk : ws.head? ≠ some k) :
    c.Ends good K (fun t => t.draft = s.draft) (Matcher.token c.cx k note o s) := by
  have hlex := c.cx.lexed k o s.progress
  rw [Matcher.token]
  generalize c.cx.lex k o s.progress = out at hlex
  cases hlex with
  | missing => exact .miss rfl
  | exhausted spent => exact .fatal fun hnone => absurd spent (not_exhausted hnone)
  | unclosed kind opened =>
      refine .fatal fun hnone => ?_
      cases htrack with
      | spent h =>
          exact absurd opened (Source.Reads.nil_iff.2 h).not_openString
      | token here => exact absurd opened (Source.not_openString_of_lexeme? here)
      | parts fork => cases hnone.symm.trans fork
  | found here kind =>
      cases htrack with
      | spent h =>
          rw [Source.lexeme?_of_isSpent h] at here
          cases here
      | token here' =>
          obtain rfl := Option.some.inj (here'.symm.trans here)
          simp [kind] at hk
      | parts fork place =>
          obtain ⟨hstart, _⟩ := Source.lexeme?_eq_some.1 here
          have := Source.lexeme?_bounds here
          exact settle_lost ⟨_, fork, .inl (by omega)⟩

theorem token_refuses {k : TokenKind} {note : Lexeme → Edit}
    (hnote : ∀ x, (note x).RefusedFor (·.isFatal = true)) (hk : ws.head? ≠ some k) :
    c.Refuses δ good (Matcher.token c.cx k note) ws A := by
  refine ⟨Matcher.token_lawful (refusals_fatal _) hnote, fun {o s} _ htrack _ => ?_⟩
  refine (token_misses htrack hk).mono (fun _ _ => id) fun t ht _ => ?_
  rw [ht, Draft.restore_mark]

/-! ## Sequence and choice -/

theorem done_follows : c.Follows δ good Matcher.done [] rest A A :=
  ⟨Matcher.done_lawful, fun _ htrack hbook => .ok ⟨htrack, Nat.le_refl _, hbook⟩⟩

theorem andThen_ends (hp : c.Ends good K M (p o s)) (hq : c.Lawful q)
    (hK : ∀ stop t, p o s = .ok stop t → K stop t → c.Ends good K' M' (q stop t))
    (hM : ∀ t, M t → M' t) : c.Ends good K' M' (Matcher.andThen p q o s) := by
  rw [Matcher.andThen]
  cases hrun : p o s with
  | ok stop t =>
      have hnext : c.Ends good K' M' (q stop t) := by
        rw [hrun] at hp
        cases hp with
        | ok h => exact hK stop t hrun h
        | lost h => exact h.ends hq
      simp only
      generalize q stop t = out at hnext
      cases hnext with
      | ok h => exact .ok h
      | miss h => exact .miss h
      | lost h => exact .lost h
      | known h => exact .known h
      | fatal h => exact .fatal h
  | error f t =>
      rw [hrun] at hp
      cases hp with
      | miss h => exact .miss (hM _ h)
      | known h => exact .known h
      | fatal h => exact .fatal h

theorem depth_of_ok (hp : c.Lawful p) (h : p o s = .ok stop t) :
    t.progress.depth = s.progress.depth :=
  (Matcher.Lawful.of_ok hp h).2.2.depth

theorem Follows.andThen (hp : c.Follows δ good p us (vs ++ rest) A B)
    (hq : c.Follows δ good q vs rest B C) :
    c.Follows δ good (Matcher.andThen p q) (us ++ vs) rest A C := by
  refine ⟨Matcher.andThen_lawful hp.lawful hq.lawful, fun {o s} hδ htrack hbook => ?_⟩
  rw [List.append_assoc] at htrack
  refine andThen_ends (hp.ends hδ htrack hbook) hq.lawful (fun stop t hrun h => ?_) fun _ => id
  have hδ' := depth_of_ok hp.lawful hrun
  refine (hq.ends (hδ'.trans hδ) h.1 h.2.2).mono (fun stop' t' h' => ⟨h'.1, ?_, h'.2.2⟩) fun _ => id
  have := h.2.1
  have := h'.2.1
  rw [List.length_append]
  omega

/-- A sequence that begins with a token. -/
theorem Follows.cons {k : TokenKind} (hp : c.Follows δ good p [k] (vs ++ rest) A B)
    (hq : c.Follows δ good q vs rest B C) :
    c.Follows δ good (Matcher.andThen p q) (k :: vs) rest A C :=
  hp.andThen hq

/-- The last of a sequence. -/
theorem Follows.last (h : c.Follows δ good p ws rest A B) :
    c.Follows δ good (Matcher.andThen p Matcher.done) ws rest A B :=
  List.append_nil ws ▸ (h.andThen done_follows : c.Follows δ good _ (ws ++ []) rest A B)

theorem Refuses.andThen (hp : c.Refuses δ good p ws A) (hq : c.Lawful q) :
    c.Refuses δ good (Matcher.andThen p q) ws A :=
  ⟨Matcher.andThen_lawful hp.lawful hq, fun hδ htrack hbook =>
    andThen_ends (hp.ends hδ htrack hbook) hq (fun _ _ _ h => h.elim) fun _ => id⟩

/-- What refuses to read on makes everything refuse that comes behind something
that may be left out and is left out. -/
theorem Refuses.andThen_of_skip
    (hp : ∀ d, c.Follows δ good p [] ws (fun o e => A o e ∧ e = d) fun o e => A o e ∧ e = d)
    (hq : c.Refuses δ good q ws A) : c.Refuses δ good (Matcher.andThen p q) ws A := by
  refine ⟨Matcher.andThen_lawful (hp .blank).lawful hq.lawful, fun {o s} hδ htrack hbook => ?_⟩
  have hp := hp s.draft
  refine andThen_ends (hp.ends hδ htrack fun h => ⟨hbook h, rfl⟩) hq.lawful
    (fun stop t hrun h => ?_) fun _ h => h.elim
  have hδ' := depth_of_ok hp.lawful hrun
  refine (hq.ends (hδ'.trans hδ) h.1 fun hnone => (h.2.2 hnone).1).mono (fun _ _ => id)
    fun u hu hnone => ?_
  have := hu hnone
  rwa [(h.2.2 hnone).2] at this

theorem orElse_ends (hp : c.Ends good K M (p o s)) (hq : c.Lawful q ∨ q = Matcher.never)
    (hM : ∀ m t, p o s = .error (.miss m) t → M t →
      c.Ends good K M' (q o (t.restore s.draft.mark))) :
    c.Ends good K M' (Matcher.orElse p q o s) := by
  rw [Matcher.orElse]
  cases hrun : p o s with
  | ok stop t =>
      rw [hrun] at hp
      cases hp with
      | ok h => exact .ok h
      | lost h => exact .lost h
  | error f t =>
      rw [hrun] at hp
      cases f with
      | fatal e =>
          cases hp with
          | fatal h => exact .fatal h
      | miss m =>
          have hsecond : c.Ends good K M' (q o (t.restore s.draft.mark)) := by
            cases hp with
            | miss h => exact hM _ _ hrun h
            | known h =>
                rcases hq with hq | rfl
                · exact (Known.lost (s := t.restore s.draft.mark) h).ends hq
                · exact .known h
          simp only
          generalize q o (t.restore s.draft.mark) = out at hsecond
          cases hsecond with
          | ok h => exact .ok h
          | miss h => exact .miss h
          | lost h => exact .lost h
          | known h => exact .known h
          | fatal h => exact .fatal h

theorem depth_of_miss (hp : c.Lawful p) {m : Miss} (h : p o s = .error (.miss m) t) :
    t.progress.depth = s.progress.depth := by
  have := hp o s
  rw [h] at this
  cases this with
  | miss _ _ _ _ later => exact later.depth

/-- The first of two matchers, where it is the right one. -/
theorem Follows.orElse (hp : c.Follows δ good p ws rest A B)
    (hq : c.Lawful q ∨ q = Matcher.never) :
    c.Follows δ good (Matcher.orElse p q) ws rest A B := by
  refine ⟨?_, fun hδ htrack hbook =>
    orElse_ends (hp.ends hδ htrack hbook) hq fun _ _ _ h => h.elim⟩
  rcases hq with hq | rfl
  · exact Matcher.orElse_lawful hp.lawful hq
  · exact Matcher.orElse_never_lawful hp.lawful

/-- The second of two matchers, where the first has no use for what is to come. -/
theorem Refuses.orElse_follows (hp : c.Refuses δ good p (ws ++ rest) A)
    (hq : c.Follows δ good q ws rest A B) : c.Follows δ good (Matcher.orElse p q) ws rest A B := by
  refine ⟨Matcher.orElse_lawful hp.lawful hq.lawful, fun {o s} hδ htrack hbook => ?_⟩
  refine orElse_ends ((hp.ends hδ htrack hbook).mono (fun _ _ h => h.elim) fun _ => id)
    (.inl hq.lawful) fun m t hrun hback => hq.ends ?_ htrack fun hnone => ?_
  · exact (depth_of_miss hp.lawful hrun).trans hδ
  · rw [State.restore, hback hnone]
    exact hbook hnone

theorem Refuses.orElse (hp : c.Refuses δ good p ws A) (hq : c.Refuses δ good q ws A) :
    c.Refuses δ good (Matcher.orElse p q) ws A := by
  refine ⟨Matcher.orElse_lawful hp.lawful hq.lawful, fun {o s} hδ htrack hbook => ?_⟩
  refine orElse_ends (hp.ends hδ htrack hbook) (.inl hq.lawful) fun m t hrun hback => ?_
  refine (hq.ends ?_ htrack fun hnone => ?_).mono (fun _ _ => id) fun u hu hnone => ?_
  · exact (depth_of_miss hp.lawful hrun).trans hδ
  · rw [State.restore, hback hnone]
    exact hbook hnone
  · have := hu hnone
    rwa [show (t.restore s.draft.mark).draft = s.draft from hback hnone] at this

theorem Refuses.orElse_never (hp : c.Refuses δ good p ws A) :
    c.Refuses δ good (Matcher.orElse p Matcher.never) ws A := by
  refine ⟨Matcher.orElse_never_lawful hp.lawful, fun {o s} hδ htrack hbook => ?_⟩
  refine orElse_ends (hp.ends hδ htrack hbook) (.inr rfl) fun m t _ hback => .miss fun hnone => ?_
  simp only [State.restore, hback hnone, Draft.restore_mark]

theorem Follows.optional (hp : c.Follows δ good p ws rest A B) :
    c.Follows δ good (Matcher.optional p) ws rest A B := by
  refine ⟨Matcher.optional_lawful hp.lawful, fun {o s} hδ htrack hbook => ?_⟩
  have h := hp.ends hδ htrack hbook
  rw [Matcher.optional]
  generalize p o s = out at h
  cases h with
  | ok h => exact .ok h
  | miss h => exact h.elim
  | lost h => exact .lost h
  | known h => exact .lost (Known.lost (s := State.restore _ s.draft.mark) h)
  | fatal h => exact .fatal h

/-- What may be left out is left out where there is no use for it. -/
theorem Refuses.optional (hp : c.Refuses δ good p rest A) :
    c.Follows δ good (Matcher.optional p) [] rest A A := by
  refine ⟨Matcher.optional_lawful hp.lawful, fun {o s} hδ htrack hbook => ?_⟩
  have h := hp.ends hδ htrack hbook
  rw [Matcher.optional]
  generalize p o s = out at h
  cases h with
  | ok h => exact h.elim
  | miss h =>
      refine .ok ⟨htrack, Nat.le_refl _, fun hnone => ?_⟩
      rw [State.restore, h hnone]
      exact hbook hnone
  | lost h => exact .lost h
  | known h => exact .lost (Known.lost (s := State.restore _ s.draft.mark) h)
  | fatal h => exact .fatal h

theorem Follows.andEdit {edit : Draft → Edit} (hp : c.Follows δ good p ws rest A B)
    (hedit : ∀ d e, ∃ e', edit d e = .ok () e')
    (hB : ∀ {stop d e e'}, B stop e → edit d e = .ok () e' → C stop e') :
    c.Follows δ good (Matcher.andEdit p edit) ws rest A C := by
  have hnever (d : Draft) : (edit d).RefusedFor (·.isFatal = true) := by
    intro e err d' h
    obtain ⟨e', he⟩ := hedit d e
    rw [he] at h
    cases h
  refine ⟨Matcher.andEdit_lawful hp.lawful hnever, fun {o s} hδ htrack hbook => ?_⟩
  have h := hp.ends hδ htrack hbook
  rw [Matcher.andEdit]
  generalize p o s = out at h
  cases h with
  | ok h =>
      refine settle_ends (fun d' hd => ⟨h.1, h.2.1, fun hnone => hB (h.2.2 hnone) hd⟩)
        fun _ e d' hd => ?_
      obtain ⟨e', he⟩ := hedit s.draft _
      rw [he] at hd
      cases hd
  | miss h => exact h.elim
  | lost h => exact settle_lost h
  | known h => exact .known h
  | fatal h => exact .fatal h

theorem Refuses.andEdit {edit : Draft → Edit} (hp : c.Refuses δ good p ws A)
    (hedit : ∀ d, (edit d).RefusedFor (·.isFatal = true)) :
    c.Refuses δ good (Matcher.andEdit p edit) ws A := by
  refine ⟨Matcher.andEdit_lawful hp.lawful hedit, fun {o s} hδ htrack hbook => ?_⟩
  have h := hp.ends hδ htrack hbook
  rw [Matcher.andEdit]
  generalize p o s = out at h
  cases h with
  | ok h => exact h.elim
  | miss h => exact .miss h
  | lost h => exact settle_lost h
  | known h => exact .known h
  | fatal h => exact .fatal h

/-! ## Repetition -/

section Repetition

variable {P : List TokenKind → Prop}

theorem many_ends (hl : c.Lawful p) (hp : c.Ends good K M (p o s))
    (hK : ∀ next t, p o s = .ok next t → K next t →
      o < next ∧ c.Ends good K' M' (Matcher.many c.cx p next t))
    (hM : ∀ t, M t → K' o (t.restore s.draft.mark)) :
    c.Ends good K' M' (Matcher.many c.cx p o s) := by
  have hkept := hl o s
  rw [Matcher.many, Matcher.rounds, Matcher.manyRound]
  cases hrun : p o s with
  | ok next t =>
      rw [hrun] at hp hkept
      cases hkept with
      | ok le bound _ =>
          simp only
          cases hp with
          | ok h =>
              obtain ⟨hlt, hends⟩ := hK next t hrun h
              rw [if_pos hlt]
              simp only
              rw [if_pos ⟨hlt, by omega⟩]
              exact hends
          | lost h =>
              by_cases hlt : o < next
              · rw [if_pos hlt]
                simp only
                split
                · exact h.ends (Matcher.many_lawful hl)
                · exact .lost h
              · obtain rfl : o = next := by omega
                rw [if_neg hlt]
                exact .lost h
  | error f t =>
      rw [hrun] at hp
      cases hp with
      | miss h => exact .ok (hM _ h)
      | known h => exact .lost (Known.lost (s := t.restore s.draft.mark) h)
      | fatal h => exact .fatal h

/-- A repetition reads as many words as there are, and stops before what it has no
use for. -/
theorem many_follows (hP : ∀ u, P u → u ≠ [])
    (hp : ∀ (u : List TokenKind) (vs : List (List TokenKind)), P u → (∀ v ∈ vs, P v) →
      c.Follows δ good p u (vs.flatten ++ rest) A A)
    (hrest : c.Refuses δ good p rest A) {us : List (List TokenKind)} (hus : ∀ u ∈ us, P u) :
    c.Follows δ good (Matcher.many c.cx p) us.flatten rest A A := by
  refine ⟨Matcher.many_lawful hrest.lawful, fun {o s} hδ htrack hbook => ?_⟩
  induction us generalizing o s with
  | nil =>
      refine many_ends hrest.lawful (hrest.ends hδ htrack hbook) (fun _ _ _ h => h.elim)
        fun t h => ⟨htrack, Nat.le_refl _, fun hnone => ?_⟩
      rw [State.restore, h hnone]
      exact hbook hnone
  | cons u us ih =>
      have hu := hus u (List.mem_cons_self ..)
      have hus := fun v hv => hus v (List.mem_cons_of_mem _ hv)
      rw [List.flatten_cons, List.append_assoc] at htrack
      refine many_ends hrest.lawful ((hp u us hu hus).ends hδ htrack hbook)
        (fun next t hrun h => ?_) fun _ h => h.elim
      obtain ⟨htrack', hle, hbook'⟩ := h
      have hpos := List.length_pos_iff.2 (hP u hu)
      refine ⟨by omega, (ih hus ((depth_of_ok hrest.lawful hrun).trans hδ) htrack' hbook').mono
        (fun stop t h => ⟨h.1, ?_, h.2.2⟩) fun _ => id⟩
      have := h.2.1
      rw [List.flatten_cons, List.length_append]
      omega

variable {k : TokenKind}

theorem further_lawful (hl : c.Lawful p) :
    c.Lawful (Matcher.rounds c.cx.source.size (Matcher.separatedRound c.cx p k)) :=
  Matcher.rounds_kept (Matcher.separatedRound_kept (refusals_fatal _) hl k)

theorem further_ends (hl : c.Lawful p) (hs : c.Ends good K M (Matcher.expect c.cx k o s))
    (hK : ∀ next t, Matcher.expect c.cx k o s = .ok next t → K next t →
      c.Ends good
        (fun stop u => o < stop ∧ c.Ends good K' M'
          (Matcher.rounds c.cx.source.size (Matcher.separatedRound c.cx p k) stop u))
        (fun u => K' next (u.restore t.draft.mark)) (p next t))
    (hM : ∀ t, M t → K' o t) :
    c.Ends good K' M'
      (Matcher.rounds c.cx.source.size (Matcher.separatedRound c.cx p k) o s) := by
  have hround := Matcher.separatedRound_kept (refusals_fatal c.cx) hl k o s
  rw [Matcher.rounds]
  rw [Matcher.separatedRound] at hround ⊢
  cases hrun : Matcher.expect c.cx k o s with
  | ok next t =>
      have hitem : c.Ends good
          (fun stop u => o < stop ∧ c.Ends good K' M'
            (Matcher.rounds c.cx.source.size (Matcher.separatedRound c.cx p k) stop u))
          (fun u => K' next (u.restore t.draft.mark)) (p next t) := by
        rw [hrun] at hs
        cases hs with
        | ok h => exact hK next t hrun h
        | lost h => exact h.ends hl
      rw [hrun] at hround
      simp only at hround ⊢
      generalize p next t = out at hitem hround
      cases hitem with
      | @ok stop u h =>
          cases hround with
          | again le bound later =>
              simp only
              rw [if_pos ⟨h.1, by omega⟩]
              exact h.2
      | miss h => exact .ok h
      | lost h =>
          simp only
          split
          · exact h.ends (further_lawful hl)
          · exact .lost h
      | known h => exact .lost (Known.lost (s := State.restore _ t.draft.mark) h)
      | fatal h => exact .fatal h
  | error f t =>
      rw [hrun] at hs
      cases hs with
      | miss h => exact .ok (hM _ h)
      | known h => exact .lost h.lost
      | fatal h => exact .fatal h

/-- The separators and what comes behind them. -/
theorem further_follows (hA : ∀ vs, c.Follows δ good (Matcher.expect c.cx k) [k] vs A A)
    (hp : ∀ (u : List TokenKind) (vs : List (List TokenKind)) (trailing : Bool), P u →
      (∀ v ∈ vs, P v) → c.Follows δ good p u
        (vs.flatMap (k :: ·) ++ Language.maybe trailing [k] ++ rest) A A)
    (hrest : c.Refuses δ good p rest A) (hk : rest.head? ≠ some k) {us : List (List TokenKind)}
    (trailing : Bool) (hus : ∀ u ∈ us, P u) :
    c.Follows δ good (Matcher.rounds c.cx.source.size (Matcher.separatedRound c.cx p k))
      (us.flatMap (k :: ·) ++ Language.maybe trailing [k]) rest A A := by
  refine ⟨further_lawful hrest.lawful, fun {o s} hδ htrack hbook => ?_⟩
  induction us generalizing o s with
  | nil =>
      cases trailing with
      | false =>
          refine further_ends hrest.lawful (token_misses (K := fun _ _ => False) htrack hk)
            (fun _ _ _ h => h.elim) fun t ht => ⟨htrack, Nat.le_refl _, fun hnone => ?_⟩
          rw [ht]
          exact hbook hnone
      | true =>
          refine further_ends hrest.lawful ((hA rest).ends hδ htrack hbook)
            (fun next t hrun h => ?_) fun _ h => h.elim
          refine (hrest.ends ((depth_of_ok (hA rest).lawful hrun).trans hδ) h.1 h.2.2).mono
            (fun _ _ h => h.elim) fun u hu => ⟨h.1, h.2.1, fun hnone => ?_⟩
          rw [State.restore, hu hnone]
          exact h.2.2 hnone
  | cons u us ih =>
      have hu := hus u (List.mem_cons_self ..)
      have hus := fun v hv => hus v (List.mem_cons_of_mem _ hv)
      have hitem := hp u us trailing hu hus
      simp only [List.flatMap_cons, List.cons_append, List.append_assoc] at htrack hitem ih ⊢
      refine further_ends hrest.lawful ((hA _).ends hδ htrack hbook) (fun next t hrun h => ?_)
        fun _ h => h.elim
      have hδ' := (depth_of_ok (hA rest).lawful hrun).trans hδ
      refine (hitem.ends hδ' h.1 h.2.2).remember.mono (fun stop v h' => ?_) fun _ h => h.elim
      obtain ⟨⟨htrack', hle, hbook'⟩, hrun'⟩ := h'
      have := h.2.1
      simp only [List.length_singleton] at this
      refine ⟨by omega, (ih hus ((depth_of_ok hrest.lawful hrun').trans hδ') htrack' hbook').mono
        (fun stop' w h' => ⟨h'.1, ?_, h'.2.2⟩) fun _ => id⟩
      have := h'.2.1
      simp only [List.length_cons, List.length_append] at this ⊢
      omega

/-- A list with separators, that is not empty. -/
theorem separated_follows (hA : ∀ vs, c.Follows δ good (Matcher.expect c.cx k) [k] vs A A)
    (hp : ∀ (u : List TokenKind) (vs : List (List TokenKind)) (trailing : Bool), P u →
      (∀ v ∈ vs, P v) → c.Follows δ good p u
        (vs.flatMap (k :: ·) ++ Language.maybe trailing [k] ++ rest) A A)
    (hrest : c.Refuses δ good p rest A) (hk : rest.head? ≠ some k) {u : List TokenKind}
    {us : List (List TokenKind)} (trailing : Bool) (hu : P u) (hus : ∀ u ∈ us, P u) :
    c.Follows δ good (Matcher.separated c.cx p k)
      (u ++ us.flatMap (k :: ·) ++ Language.maybe trailing [k]) rest A A := by
  refine ⟨Matcher.separated_lawful (refusals_fatal _) hrest.lawful k,
    fun {o s} hδ htrack hbook => ?_⟩
  have hfurther := further_follows hA hp hrest hk trailing hus
  have hitem := hp u us trailing hu hus
  simp only [List.append_assoc] at htrack hitem ⊢
  have h := hitem.ends hδ htrack hbook
  rw [Matcher.separated]
  generalize hrun : p o s = out at h
  cases h with
  | ok h =>
      obtain ⟨htrack', hle, hbook'⟩ := h
      refine (hfurther.ends ((depth_of_ok hrest.lawful hrun).trans hδ)
        (by rwa [List.append_assoc]) hbook').mono
        (fun stop v h => ⟨h.1, ?_, h.2.2⟩) fun _ => id
      have := h.2.1
      simp only [List.length_append] at this ⊢
      omega
  | miss h => exact h.elim
  | lost h => exact h.ends (further_lawful hrest.lawful)
  | known h => exact .lost (Known.lost (s := State.restore _ s.draft.mark) h)
  | fatal h => exact .fatal h

theorem Refuses.separated (hp : c.Refuses δ good p rest A) :
    c.Follows δ good (Matcher.separated c.cx p k) [] rest A A := by
  refine ⟨Matcher.separated_lawful (refusals_fatal _) hp.lawful k, fun {o s} hδ htrack hbook => ?_⟩
  have h := hp.ends hδ htrack hbook
  rw [Matcher.separated]
  generalize p o s = out at h
  cases h with
  | ok h => exact h.elim
  | miss h =>
      refine .ok ⟨htrack, Nat.le_refl _, fun hnone => ?_⟩
      rw [State.restore, h hnone]
      exact hbook hnone
  | lost h => exact h.ends (further_lawful hp.lawful)
  | known h => exact .lost (Known.lost (s := State.restore _ s.draft.mark) h)
  | fatal h => exact .fatal h

end Repetition

/-! ## Nodes -/

/-- A child reads what its own matcher reads on a blank draft. What is good for the
child may depend on where it starts, as long as nothing is good if that is
not. -/
theorem child_follows {attach : Node → Edit}
    (hattach : ∀ n, (attach n).RefusedFor (·.isFatal = true)) (hlawful : c.Lawful p)
    (hroom : ∀ {o d}, c.fork? = none → A o d → δ < c.cx.limits.maxDepth)
    (hp : ∀ {o d}, (c.fork? = none → A o d) → ∃ (g : Prop) (Q : Nat → Prop),
      c.Follows (δ + 1) g p ws rest (fun o' e => o' = o ∧ e = .blank) (fun stop _ => Q stop) ∧
        (c.fork? = none → (good → g) ∧
          (∀ {stop n d'}, Q stop → attach n d = .ok () d' → B stop d') ∧
            ∀ {stop n e d'}, Q stop → attach n d = .error e d' → ¬ good)) :
    c.Follows δ good (Matcher.child c.cx p attach) ws rest A B := by
  refine ⟨Matcher.child_lawful (refusals_fatal _) hlawful hattach, fun {o s} hδ htrack hbook => ?_⟩
  rcases Nat.lt_or_ge s.progress.depth c.cx.limits.maxDepth with hlt | hfull
  · rw [Matcher.child_of_room hlt]
    obtain ⟨g, Q, hinner, hout⟩ := hp hbook
    have h := hinner.ends (s := ⟨.blank, s.progress.deeper⟩)
      (by simp [Progress.deeper, hδ]) htrack fun _ => ⟨rfl, rfl⟩
    generalize p o ⟨.blank, s.progress.deeper⟩ = out at h
    cases h with
    | ok h =>
        refine settle_ends (fun d' hd => ⟨h.1, h.2.1, fun hnone => ?_⟩) fun hnone e d' hd => ?_
        · exact (hout hnone).2.1 (h.2.2 hnone) hd
        · exact (hout hnone).2.2 (h.2.2 hnone) hd
    | miss h => exact h.elim
    | lost h => exact settle_lost h
    | known h => exact .known h
    | fatal h => exact .fatal fun hnone hgood => h hnone ((hout hnone).1 hgood)
  · rw [Matcher.child_of_full hfull]
    refine .fatal fun hnone => ?_
    have := hroom hnone (hbook hnone)
    omega

theorem Refuses.child {A' : Assertion} {attach : Node → Edit}
    (hattach : ∀ n, (attach n).RefusedFor (·.isFatal = true))
    (hroom : ∀ {o d}, c.fork? = none → A o d → δ < c.cx.limits.maxDepth ∧ A' o .blank)
    (hp : c.Refuses (δ + 1) good p ws A') :
    c.Refuses δ good (Matcher.child c.cx p attach) ws A := by
  refine ⟨Matcher.child_lawful (refusals_fatal _) hp.lawful hattach,
    fun {o s} hδ htrack hbook => ?_⟩
  rcases Nat.lt_or_ge s.progress.depth c.cx.limits.maxDepth with hlt | hfull
  · rw [Matcher.child_of_room hlt]
    have h := hp.ends (s := ⟨.blank, s.progress.deeper⟩)
      (by simp [Progress.deeper, hδ]) htrack fun hnone => (hroom hnone (hbook hnone)).2
    generalize p o ⟨.blank, s.progress.deeper⟩ = out at h
    cases h with
    | ok h => exact h.elim
    | miss h => exact .miss fun _ => Draft.restore_mark _
    | lost h => exact settle_lost h
    | known h => exact .known h
    | fatal h => exact .fatal h
  · rw [Matcher.child_of_full hfull]
    refine .fatal fun hnone => ?_
    have := (hroom hnone (hbook hnone)).1
    omega

/-! ## The end of the source -/

theorem endOfInput_cases (htrack : c.Tracks o []) (s : State) :
    c.cx.source.isSpent o = true ∧
        Matcher.endOfInput c.cx o s = .ok (c.cx.source.skipBlanks o) s ∨
      ∃ m t, Matcher.endOfInput c.cx o s = .error (.miss m) t ∧ c.Known t.progress := by
  rw [Matcher.endOfInput_eq]
  cases htrack with
  | spent h => exact .inl ⟨h, if_pos h⟩
  | parts fork place wanted _ more =>
      rw [if_neg (by simp [more rfl])]
      refine .inr ⟨_, _, rfl, _, fork, (Progress.covers_noteMiss _ o ..).mono
        (.inr ⟨place.symm, fun k hk => ?_⟩)⟩
      rw [wanted] at hk
      exact hk

/-- Where nothing is left to follow, the end of the source has come, or it is the
fork. -/
theorem endOfInput_follows
    (hB : ∀ {o d}, c.cx.source.isSpent o = true → A o d → B (c.cx.source.skipBlanks o) d) :
    c.Follows δ good (Matcher.endOfInput c.cx) [] [] A B := by
  refine ⟨Matcher.endOfInput_lawful, fun {o s} _ htrack hbook => ?_⟩
  rcases endOfInput_cases htrack s with ⟨hs, hrun⟩ | ⟨m, t, hrun, hknown⟩
  · rw [hrun]
    refine .ok ⟨.spent ?_, c.cx.source.le_skipBlanks o, fun hnone => hB hs (hbook hnone)⟩
    simpa [Source.isSpent, Source.skipBlanks_idem] using hs
  · rw [hrun]
    exact .known hknown

theorem ahead_endOfInput_follows (hB : ∀ {o d}, c.cx.source.isSpent o = true → A o d → B o d) :
    c.Follows δ good (Matcher.ahead (Matcher.endOfInput c.cx)) [] [] A B := by
  refine ⟨Matcher.ahead_lawful Matcher.endOfInput_lawful, fun {o s} _ htrack hbook => ?_⟩
  rw [Matcher.ahead]
  rcases endOfInput_cases htrack s with ⟨hs, hrun⟩ | ⟨m, t, hrun, hknown⟩
  · rw [hrun]
    exact .ok ⟨htrack, Nat.le_refl _, fun hnone => hB hs (hbook hnone)⟩
  · rw [hrun]
    exact .known hknown

end Trial

end WeLang
