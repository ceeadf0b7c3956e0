import WeLang.Proofs.Language

/-!
# What is read and what is missed

A matcher stays within the language of its pattern in two ways. What it matches
is a piece of the path that its pattern spells. And what it misses is something
that could have stood there: if all that the pattern spells may come where the
matcher starts, then every kind that it notes as missing could have come where
it noted it, after the tokens up to there (`Matcher.Within`).

The second half is what makes the expectations of an error sound. It is an
invariant of the furthest miss, `Progress.Justified`: the miss is at a token of
the path, and each kind it wants would continue the tokens before to something
that is still the beginning of a sentence, and is not the kind that is there.
Attempts that were given up leave their misses behind, but they too were made
where the grammar allowed them, so nothing has to be known about how a parse came
to try what it tried.

To look ahead is to ask for what does not belong to the pattern. The grammar does
it only at the end of a source, where nothing is wanted (`Pattern.Plain`).
-/

namespace WeLang

variable {cx : Context} {src : Source} {o o' m : Nat} {xs ys : List Lexeme}

/-! ## Up to blanks -/

/-- The tokens `xs` are read from `o`, and then one is at `o'`, or before the
blanks there, or behind them. -/
def Source.Reaches (src : Source) (o : Nat) (xs : List Lexeme) (o' : Nat) : Prop :=
  ∃ m, src.Path o xs m ∧ src.skipBlanks m = src.skipBlanks o'

namespace Source.Reaches

theorem refl (src : Source) (o : Nat) : src.Reaches o [] o :=
  ⟨o, .nil o, rfl⟩

theorem of_lexeme? {x : Lexeme} (h : src.lexeme? o = some x) : src.Reaches o [x] x.span.stop :=
  ⟨_, .cons h (.nil _), rfl⟩

theorem trans (h : src.Reaches o xs m) (h' : src.Reaches m ys o') :
    src.Reaches o (xs ++ ys) o' := by
  obtain ⟨a, hp, ha⟩ := h
  obtain ⟨b, hp', hb⟩ := h'
  cases hp' with
  | nil _ => exact ⟨a, by simpa using hp, ha.trans hb⟩
  | cons head tail =>
      rw [lexeme?_congr ha.symm] at head
      exact ⟨b, hp.append (.cons head tail), hb⟩

end Source.Reaches

/-! ## Beginnings of sentences -/

/-- Whether kinds of tokens can be continued to a sentence. -/
def Viable (S : List TokenKind → Prop) (w : List TokenKind) : Prop :=
  ∃ v, S (w ++ v)

theorem Viable.of_append {S : List TokenKind → Prop} {u v : List TokenKind}
    (h : Viable S (u ++ v)) : Viable S u := by
  obtain ⟨w, hw⟩ := h
  exact ⟨v ++ w, by simpa using hw⟩

/-- What the furthest miss wants could have come there, and did not. -/
def Progress.Justified (src : Source) (S : List TokenKind → Prop) (p : Progress) : Prop :=
  ∀ f, p.furthest = some f → ∃ us o, src.Path 0 us o ∧ f.offset = src.skipBlanks o ∧
    ∀ k, k ∈ f.expected → Viable S (us.map Lexeme.kind ++ [k]) ∧ ¬ k.Answers src f.offset

/-- The progress after a step. -/
def Step.progress : Step → Progress
  | .ok _ t | .error _ t => t.progress

variable {S : List TokenKind → Prop}

theorem Progress.Justified.noteMiss {p : Progress} {us : List Lexeme} {expected : TokenSet}
    (h : p.Justified src S) (hp : src.Path 0 us o)
    (he : ∀ k, k ∈ expected →
      Viable S (us.map Lexeme.kind ++ [k]) ∧ ¬ k.Answers src (src.skipBlanks o)) :
    (p.noteMiss (src.skipBlanks o) expected).Justified src S := by
  intro f hf
  cases hseen : p.furthest with
  | none =>
      simp only [Progress.noteMiss, hseen, Option.some.injEq] at hf
      subst hf
      exact ⟨us, o, hp, rfl, he⟩
  | some seen =>
      simp only [Progress.noteMiss, hseen, Option.some.injEq] at hf
      subst hf
      obtain ⟨us', o', hp', hoff, he'⟩ := h seen hseen
      simp only [Miss.offset_merge, Miss.mem_merge]
      rcases Nat.lt_or_ge (src.skipBlanks o) seen.offset with hlt | hge
      · refine ⟨us', o', hp', by omega, fun k hk => ?_⟩
        rw [Nat.max_eq_left (Nat.le_of_lt hlt)]
        exact he' k (hk.resolve_right (by omega)).2
      · refine ⟨us, o, hp, by omega, fun k hk => ?_⟩
        rw [Nat.max_eq_right hge]
        rcases hk with ⟨hle, hk⟩ | ⟨_, hk⟩
        · obtain ⟨rfl, rfl⟩ := hp'.eq_of_skipBlanks_eq hp (by omega)
          exact hoff ▸ he' k hk
        · exact he k hk

/-! ## Matchers -/

/-- A matcher that reads what is in a language, and misses what could have come
wherever all that is in the language may come. -/
structure Matcher.Within (cx : Context) (L : List TokenKind → Prop) (p : Matcher) : Prop where
  reads : ∀ {start s stop t}, p start s = .ok stop t →
    ∃ xs, cx.source.Reaches start xs stop ∧ L (xs.map Lexeme.kind)
  justified : ∀ {S us start s}, cx.source.Reaches 0 us start →
    (∀ w, L w → Viable S (us.map Lexeme.kind ++ w)) → s.progress.Justified cx.source S →
      (p start s).progress.Justified cx.source S

@[simp] theorem Step.progress_settle (s : State) (edit : Edit) (stop : Nat) :
    (s.settle edit stop).progress = s.progress := by
  rw [State.settle]
  split <;> rfl

theorem State.stop_of_settle {s t : State} {edit : Edit} {stop stop' : Nat}
    (h : s.settle edit stop = .ok stop' t) : stop' = stop := by
  rw [State.settle] at h
  split at h
  · cases h
    rfl
  · cases h

theorem Progress.furthest_noteCollision (p : Progress) (cx : Context) (kind : TokenKind)
    (span : Span) : (p.noteCollision cx kind span).furthest = p.furthest := by
  rw [Progress.noteCollision]
  split
  · rfl
  · split <;> rfl

namespace Matcher

variable {p q : Matcher} {L M : List TokenKind → Prop}

theorem token_within (cx : Context) (kind : TokenKind) (note : Lexeme → Edit) :
    Within cx (· = [kind]) (token cx kind note) := by
  constructor
  · intro start s stop t h
    have hlex := cx.lexed kind start s.progress
    rw [token] at h
    generalize cx.lex kind start s.progress = out at h hlex
    cases hlex with
    | @found x here hk =>
        obtain rfl := State.stop_of_settle h
        exact ⟨[x], .of_lexeme? here, by simp [hk]⟩
    | missing => cases h
    | unclosed => cases h
    | exhausted => cases h
  · intro S us start s hus hL hs
    have hlex := cx.lexed kind start s.progress
    rw [token]
    generalize cx.lex kind start s.progress = out at hlex
    cases hlex with
    | found =>
        rw [Step.progress_settle]
        rw [Progress.Justified]
        rw [Progress.furthest_noteCollision]
        exact hs
    | missing absent =>
        obtain ⟨m, hp, hm⟩ := hus
        rw [← hm] at absent ⊢
        refine Progress.Justified.noteMiss (p := s.progress.spend) hs hp fun k hk => ?_
        obtain rfl := TokenSet.mem_single.1 hk
        exact ⟨hL _ rfl, absent⟩
    | unclosed => exact hs
    | exhausted => exact hs

theorem endOfInput_within (cx : Context) : Within cx (· = []) (endOfInput cx) := by
  constructor
  · intro start s stop t h
    refine ⟨[], ?_, rfl⟩
    rw [endOfInput_eq] at h
    split at h
    · cases h
      exact ⟨start, .nil start, (cx.source.skipBlanks_idem start).symm⟩
    · cases h
  · intro S us start s hus _ hs
    obtain ⟨m, hp, hm⟩ := hus
    rw [endOfInput_eq]
    split
    · exact hs
    · rw [← hm]
      exact hs.noteMiss hp fun k hk => absurd hk (TokenSet.not_mem_empty k)

theorem done_within (cx : Context) : Within cx (· = []) done := by
  constructor
  · intro start s stop t h
    cases h
    exact ⟨[], .refl _ _, rfl⟩
  · exact fun _ _ hs => hs

theorem never_within (cx : Context) : Within cx (fun _ => False) never :=
  ⟨(fun h => nomatch h), fun _ _ hs => hs⟩

/-- What stays within a language stays within every greater one. -/
theorem Within.mono (h : Within cx L p) (hLM : ∀ w, L w → M w) : Within cx M p := by
  constructor
  · intro start s stop t hrun
    obtain ⟨xs, hxs, hL⟩ := h.reads hrun
    exact ⟨xs, hxs, hLM _ hL⟩
  · intro S us start s hus hv hs
    exact h.justified hus (fun w hw => hv w (hLM w hw)) hs

theorem andThen_within (hp : Within cx L p) (hq : Within cx M q) (hM : ∃ w, M w) :
    Within cx (fun w => ∃ u v, w = u ++ v ∧ L u ∧ M v) (andThen p q) := by
  constructor
  · intro start s stop t h
    rw [andThen] at h
    split at h
    · cases h
    · next hrun =>
        obtain ⟨xs, hxs, hL⟩ := hp.reads hrun
        split at h
        · cases h
        · next hrun' =>
            cases h
            obtain ⟨ys, hys, hM⟩ := hq.reads hrun'
            exact ⟨xs ++ ys, hxs.trans hys, _, _, List.map_append, hL, hM⟩
  · intro S us start s hus hv hs
    obtain ⟨v, hv'⟩ := hM
    have hfirst := hp.justified hus (fun u hu => by
      have := hv (u ++ v) ⟨u, v, rfl, hu, hv'⟩
      rw [← List.append_assoc] at this
      exact this.of_append) hs
    rw [andThen]
    cases hrun : p start s with
    | error f t =>
        rw [hrun] at hfirst
        exact hfirst
    | ok next t =>
        rw [hrun] at hfirst
        obtain ⟨xs, hxs, hL⟩ := hp.reads hrun
        have hsecond := hq.justified (s := t) (hus.trans hxs) (fun w hw => by
          rw [List.map_append, List.append_assoc]
          exact hv _ ⟨_, w, rfl, hL, hw⟩) hfirst
        simp only
        cases hrun' : q next t <;>
          · rw [hrun'] at hsecond
            exact hsecond

theorem orElse_within (hp : Within cx L p) (hq : Within cx M q) :
    Within cx (fun w => L w ∨ M w) (orElse p q) := by
  constructor
  · intro start s stop t h
    rw [orElse] at h
    split at h
    · next hrun =>
        cases h
        obtain ⟨xs, hxs, hL⟩ := hp.reads hrun
        exact ⟨xs, hxs, .inl hL⟩
    · cases h
    · split at h
      · next hrun =>
          cases h
          obtain ⟨xs, hxs, hM⟩ := hq.reads hrun
          exact ⟨xs, hxs, .inr hM⟩
      · cases h
      · cases h
  · intro S us start s hus hv hs
    have hfirst := hp.justified hus (fun u hu => hv u (.inl hu)) hs
    rw [orElse]
    cases hrun : p start s with
    | ok next t =>
        rw [hrun] at hfirst
        exact hfirst
    | error f t =>
        rw [hrun] at hfirst
        cases f with
        | fatal e => exact hfirst
        | miss m =>
            have hsecond := hq.justified (s := t.restore s.draft.mark) hus
              (fun u hu => hv u (.inr hu)) hfirst
            simp only
            cases hrun' : q start (t.restore s.draft.mark) with
            | ok stop u =>
                rw [hrun'] at hsecond
                exact hsecond
            | error f u =>
                rw [hrun'] at hsecond
                cases f <;> exact hsecond

theorem optional_within (hp : Within cx L p) :
    Within cx (fun w => w = [] ∨ L w) (optional p) := by
  constructor
  · intro start s stop t h
    rw [optional] at h
    split at h
    · next hrun =>
        cases h
        obtain ⟨xs, hxs, hL⟩ := hp.reads hrun
        exact ⟨xs, hxs, .inr hL⟩
    · cases h
    · cases h
      exact ⟨[], .refl _ _, .inl rfl⟩
  · intro S us start s hus hv hs
    have hfirst := hp.justified hus (fun u hu => hv u (.inr hu)) hs
    rw [optional]
    cases hrun : p start s with
    | ok next t =>
        rw [hrun] at hfirst
        exact hfirst
    | error f t =>
        rw [hrun] at hfirst
        cases f <;> exact hfirst

theorem ahead_endOfInput_within (cx : Context) : Within cx (· = []) (ahead (endOfInput cx)) := by
  constructor
  · intro start s stop t h
    refine ⟨[], ?_, rfl⟩
    rw [ahead] at h
    split at h
    · cases h
      exact .refl _ _
    · cases h
  · intro S us start s hus hv hs
    have h := (endOfInput_within cx).justified hus hv hs
    rw [ahead]
    cases hrun : endOfInput cx start s <;>
      · rw [hrun] at h
        exact h

/-! ## Repetitions -/

/-- A round of a repetition that reads what is in `M`: what it reads may be
followed by all that is in `M`, unless it is the last round, and then it is in
`M` itself. -/
structure RoundWithin (cx : Context) (M : List TokenKind → Prop) (round : Nat → State → Round) :
    Prop where
  again : ∀ {pos s next t}, round pos s = .again next t →
    ∃ xs, cx.source.Reaches pos xs next ∧ ∀ w, M w → M (xs.map Lexeme.kind ++ w)
  stop : ∀ {pos s stop t}, round pos s = .stop stop t →
    ∃ xs, cx.source.Reaches pos xs stop ∧ M (xs.map Lexeme.kind)
  justified : ∀ {S us pos s}, cx.source.Reaches 0 us pos →
    (∀ w, M w → Viable S (us.map Lexeme.kind ++ w)) → s.progress.Justified cx.source S →
      (match round pos s with
        | .again _ t | .stop _ t | .fail _ t => t.progress).Justified cx.source S

theorem rounds_within {round : Nat → State → Round} (h : RoundWithin cx M round) (hM : M []) :
    Within cx M (rounds cx.source.size round) := by
  constructor
  · intro start s
    refine rounds_induction (motive := fun pos _ out => ∀ {stop t}, out = .ok stop t →
      ∃ xs, cx.source.Reaches pos xs stop ∧ M (xs.map Lexeme.kind)) ?_ ?_ ?_ ?_ start s
    · intro pos s stop s' hr stop' t hout
      cases hout
      exact h.stop hr
    · intro pos s e s' _ stop t hout
      cases hout
    · intro pos s next s' hr _ stop t hout
      cases hout
      obtain ⟨xs, hxs, hcont⟩ := h.again hr
      exact ⟨xs, hxs, by simpa using hcont [] hM⟩
    · intro pos s next s' hr _ _ ih stop t hout
      obtain ⟨xs, hxs, hcont⟩ := h.again hr
      obtain ⟨ys, hys, hrest⟩ := ih hout
      exact ⟨xs ++ ys, hxs.trans hys, by simpa using hcont _ hrest⟩
  · intro S us start s
    refine rounds_induction (motive := fun pos s out => ∀ {us}, cx.source.Reaches 0 us pos →
      (∀ w, M w → Viable S (us.map Lexeme.kind ++ w)) → s.progress.Justified cx.source S →
        out.progress.Justified cx.source S) ?_ ?_ ?_ ?_ start s
    · intro pos s stop s' hr us hus hv hs
      have := h.justified hus hv hs
      rw [hr] at this
      exact this
    · intro pos s e s' hr us hus hv hs
      have := h.justified hus hv hs
      rw [hr] at this
      exact this
    · intro pos s next s' hr _ us hus hv hs
      have := h.justified hus hv hs
      rw [hr] at this
      exact this
    · intro pos s next s' hr _ _ ih us hus hv hs
      have hround := h.justified hus hv hs
      rw [hr] at hround
      obtain ⟨xs, hxs, hcont⟩ := h.again hr
      refine ih (hus.trans hxs) (fun w hw => ?_) hround
      rw [List.map_append, List.append_assoc]
      exact hv _ (hcont w hw)

theorem manyRound_within (hp : Within cx L p) :
    RoundWithin cx (Language.Repeated L) (manyRound p) := by
  constructor
  · intro pos s next t h
    rw [manyRound] at h
    split at h
    · next hrun =>
        split at h
        · cases h
          obtain ⟨xs, hxs, hL⟩ := hp.reads hrun
          exact ⟨xs, hxs, fun w hmem => hmem.cons hL⟩
        · cases h
    · cases h
    · cases h
  · intro pos s stop t h
    refine ⟨[], ?_, Language.repeated_nil L⟩
    rw [manyRound] at h
    split at h
    · split at h
      · cases h
      · cases h
        exact .refl _ _
    · cases h
      exact .refl _ _
    · cases h
  · intro S us pos s hus hv hs
    have hround := hp.justified hus (fun u hu => hv u (Language.repeated_singleton hu)) hs
    rw [manyRound]
    cases hrun : p pos s with
    | ok next t =>
        rw [hrun] at hround
        simp only
        by_cases hlt : pos < next
        · rw [if_pos hlt]
          exact hround
        · rw [if_neg hlt]
          exact hround
    | error f t =>
        rw [hrun] at hround
        cases f <;> exact hround

theorem many_within (hp : Within cx L p) :
    Within cx (Language.Repeated L) (many cx p) :=
  rounds_within (manyRound_within hp) (Language.repeated_nil L)

theorem separatedRound_within (hp : Within cx L p) (separator : TokenKind) :
    RoundWithin cx (Language.Further L separator) (separatedRound cx p separator) := by
  have hsep := token_within cx separator fun _ => pure ()
  constructor
  · intro pos s next t h
    rw [separatedRound] at h
    split at h
    · cases h
    · cases h
    · next hrun =>
        obtain ⟨xs, hxs, hk⟩ := hsep.reads hrun
        split at h
        · next hrun' =>
            cases h
            obtain ⟨ys, hys, hL⟩ := hp.reads hrun'
            refine ⟨xs ++ ys, hxs.trans hys, fun w hmem => ?_⟩
            rw [List.map_append, hk]
            exact hmem.cons hL
        · cases h
        · cases h
  · intro pos s stop t h
    rw [separatedRound] at h
    split at h
    · cases h
      exact ⟨[], .refl _ _, Language.further_nil L separator⟩
    · cases h
    · next hrun =>
        obtain ⟨xs, hxs, hk⟩ := hsep.reads hrun
        split at h
        · cases h
        · cases h
          exact ⟨xs, hxs, hk ▸ Language.further_separator L separator⟩
        · cases h
  · intro S us pos s hus hv hs
    have hfirst := hsep.justified hus
      (fun u hu => hv u (hu ▸ Language.further_separator L separator)) hs
    rw [separatedRound, expect]
    cases hrun : token cx separator (fun _ => pure ()) pos s with
    | error f t =>
        rw [hrun] at hfirst
        cases f <;> exact hfirst
    | ok next t =>
        rw [hrun] at hfirst
        obtain ⟨xs, hxs, hk⟩ := hsep.reads hrun
        have hsecond := hp.justified (s := t) (hus.trans hxs) (fun w hw => by
          rw [List.map_append, List.append_assoc, hk]
          exact hv _ (Language.further_singleton hw separator)) hfirst
        simp only
        cases hrun' : p next t with
        | ok stop u =>
            rw [hrun'] at hsecond
            exact hsecond
        | error f u =>
            rw [hrun'] at hsecond
            cases f <;> exact hsecond

theorem separated_within (hp : Within cx L p) (separator : TokenKind) :
    Within cx (Language.Separated L separator) (separated cx p separator) := by
  have hrounds := rounds_within (separatedRound_within hp separator)
    (Language.further_nil L separator)
  constructor
  · intro start s stop t h
    rw [separated] at h
    split at h
    · next hrun =>
        obtain ⟨xs, hxs, hL⟩ := hp.reads hrun
        obtain ⟨ys, hys, hfurther⟩ := hrounds.reads h
        have hread := hfurther.separated hL
        rw [← List.map_append] at hread
        exact ⟨xs ++ ys, hxs.trans hys, hread⟩
    · cases h
      exact ⟨[], .refl _ _, .inl rfl⟩
    · cases h
  · intro S us start s hus hv hs
    have hfirst := hp.justified hus
      (fun u hu => hv u (Language.separated_singleton hu separator)) hs
    rw [separated]
    cases hrun : p start s with
    | error f t =>
        rw [hrun] at hfirst
        cases f <;> exact hfirst
    | ok next t =>
        rw [hrun] at hfirst
        obtain ⟨xs, hxs, hL⟩ := hp.reads hrun
        refine hrounds.justified (hus.trans hxs) (fun w hmem => ?_) hfirst
        rw [List.map_append, List.append_assoc]
        exact hv _ (hmem.separated hL)

/-! ## Nodes -/

theorem child_within (hp : Within cx L p) (attach : Node → Edit) :
    Within cx L (child cx p attach) := by
  constructor
  · intro start s stop t h
    rcases Nat.lt_or_ge s.progress.depth cx.limits.maxDepth with hroom | hfull
    · rw [child_of_room hroom] at h
      split at h
      · cases h
      · next hrun =>
          obtain rfl := State.stop_of_settle h
          exact hp.reads hrun
    · rw [child_of_full hfull] at h
      cases h
  · intro S us start s hus hv hs
    rcases Nat.lt_or_ge s.progress.depth cx.limits.maxDepth with hroom | hfull
    · have hinner := hp.justified (s := ⟨.blank, s.progress.deeper⟩) hus hv hs
      rw [child_of_room hroom]
      cases hrun : p start ⟨.blank, s.progress.deeper⟩ with
      | error f t =>
          rw [hrun] at hinner
          exact hinner
      | ok stop t =>
          rw [hrun] at hinner
          simp only [Step.progress_settle]
          exact hinner
    · rw [child_of_full hfull]
      exact hs

theorem andEdit_within (hp : Within cx L p) (edit : Draft → Edit) :
    Within cx L (andEdit p edit) := by
  constructor
  · intro start s stop t h
    rw [andEdit] at h
    split at h
    · next hrun =>
        obtain rfl := State.stop_of_settle h
        exact hp.reads hrun
    · cases h
  · intro S us start s hus hv hs
    have hinner := hp.justified hus hv hs
    rw [andEdit]
    cases hrun : p start s with
    | error f t =>
        rw [hrun] at hinner
        exact hinner
    | ok stop t =>
        rw [hrun] at hinner
        simp only [Step.progress_settle]
        exact hinner

end Matcher

/-! ## Patterns -/

namespace Pattern

variable {ν : Type}

/-- A pattern that looks ahead for nothing but the end of the source. -/
def Plain : Pattern ν → Prop
  | .token .. | .endOfInput | .done | .never | .ref _ => True
  | .andThen p q | .orElse p q => p.Plain ∧ q.Plain
  | .optional p | .many p | .separated p _ | .child p _ | .andEdit p _ => p.Plain
  | .ahead p => p = .endOfInput

open Matcher in
/-- Every pattern stays within what it spells if what it refers to does. -/
theorem run_within {E : ParseError.Cause → Prop} {R : ν → List TokenKind → Prop}
    {env : ν → Matcher} (hR : ∀ n, ∃ w, R n w) (henv : ∀ n, Within cx (R n) (env n))
    {p : Pattern ν} (h : p.Honest E) (hplain : p.Plain) :
    Within cx (p.Spells R) (p.run cx env) := by
  induction p with
  | token kind note => exact token_within cx kind note
  | endOfInput => exact endOfInput_within cx
  | done => exact done_within cx
  | never => exact h.elim
  | andThen p q ihp ihq =>
      exact andThen_within (ihp h.1 hplain.1) (ihq h.2 hplain.2) (h.2.spells hR)
  | orElse p q ihp ihq =>
      rcases h.2 with hq | rfl
      · exact orElse_within (ihp h.1 hplain.1) (ihq hq hplain.2)
      · exact orElse_within (ihp h.1 hplain.1) (never_within cx)
  | optional p ih => exact optional_within (ih h hplain)
  | many p ih => exact many_within (ih h hplain)
  | separated item separator ih => exact separated_within (ih h hplain) separator
  | ahead p _ =>
      obtain rfl : p = .endOfInput := hplain
      exact ahead_endOfInput_within cx
  | child p attach ih => exact child_within (ih h.1 hplain) attach
  | andEdit p edit ih => exact andEdit_within (ih h.1 hplain) edit
  | ref name => exact henv name

end Pattern

/-! ## The grammar -/

namespace Grammar

open Matcher WeLang.Language

variable {ν : Type} {inner : Pattern ν}

theorem value_plain (h : inner.Plain) : (value inner).Plain := by
  simp [value, list, map, function, typeParameter, typeAlias, typeIdentity, discard, integer,
    identifierChain, string, wrapped, nested, entry, signature, clause, segment, Pattern.firstOf,
    Pattern.sequence, Pattern.mark, Pattern.word, Pattern.expect, Pattern.Plain, h]

theorem module_plain (h : inner.Plain) : («module» inner).Plain := by
  simp [«module», useStatement, identifierChain, segment, entry, Pattern.sequence, Pattern.mark,
    Pattern.word, Pattern.expect, Pattern.Plain, h]

theorem soleValue_plain (h : inner.Plain) : (soleValue inner).Plain :=
  ⟨value_plain h, rfl, trivial⟩

theorem ref_plain : (Pattern.ref Nonterminal.value).Plain :=
  trivial

theorem exists_isValue (_ : Nonterminal) : ∃ w, IsValue w :=
  ⟨_, .discard⟩

theorem valueWithin_within (cx : Context) (levels : Nat) :
    Within cx IsValue (valueWithin cx levels) := by
  induction levels with
  | zero => exact ⟨(fun h => nomatch h), fun _ _ hs => hs⟩
  | succ levels ih =>
      have := Pattern.run_within (R := fun _ => IsValue) exists_isValue (fun _ => ih)
        (value_honest (E := (·.isFatal = true)) ref_honest) (value_plain ref_plain)
      exact this.mono fun w hw => isValue_of_spells (fun _ => id) hw

end Grammar

/-- The matcher of a goal reads a sentence, and misses what could have come in a
sentence. -/
theorem Goal.matcher_within (goal : Goal) (cx : Context) :
    Matcher.Within cx (Language.Sentence goal) (goal.matcher cx) := by
  have henv (n : Nonterminal) : Matcher.Within cx Language.IsValue (Grammar.meaning cx n) :=
    Grammar.valueWithin_within cx _
  cases goal with
  | module =>
      have := Pattern.run_within (R := fun _ => Language.IsValue) Grammar.exists_isValue henv
        (Grammar.module_honest (E := (·.isFatal = true)) Grammar.ref_honest)
        (Grammar.module_plain Grammar.ref_plain)
      exact this.mono fun w hw => Language.sentence_of_spells_module (fun _ => id) hw
  | value =>
      have := Pattern.run_within (R := fun _ => Language.IsValue) Grammar.exists_isValue henv
        (Grammar.soleValue_honest (E := (·.isFatal = true)) Grammar.ref_honest)
        (Grammar.soleValue_plain Grammar.ref_plain)
      exact this.mono fun w hw => Language.sentence_of_spells_soleValue (fun _ => id) hw

end WeLang
