import WeLang.Proofs.Recognition

/-!
# What an error expects

If something else should have come, the error says what. It says all that could
have come there, and nothing that could not: `mem_expected_iff`.

What could not have come is not among it because nothing is ever noted as missing
where the grammar does not allow it (`Goal.matcher_within`). That nothing is left
out is seen by following a sentence. Let the tokens before the error and one of
the kinds that could have come be the beginning of a sentence. The parser follows
it to where the source parts from it, and there it asks for the kind that is next
in the sentence, so that the furthest miss wants it too. That place cannot be
behind the furthest miss, so it is there that the source parts from the sentence,
and the kind is the one that could have come.
-/

namespace WeLang

variable {s : Source} {o : Nat}

/-! ## The tokens before a place -/

namespace Source

/-- The tokens that the scanner finds before a place on the path are those on the
way to it. -/
theorem tokens_before {xs : List Lexeme} (h : s.Path 0 xs o) :
    (s.tokens.filter (·.span.start < s.skipBlanks o)).map Token.lexeme = xs := by
  obtain ⟨o', hpath, hend⟩ := Scanner.path_tokens .initial s
  have hsplit : ∃ ys a, s.tokens.map Token.lexeme = xs ++ ys ∧ s.Path o ys a := by
    rcases h.total hpath with ⟨ys, hys, hrest⟩ | ⟨ys, rfl, hrest⟩
    · exact ⟨ys, o', hys, hrest⟩
    · cases hrest with
      | nil _ => exact ⟨[], o, by simp [tokens], .nil _⟩
      | cons head _ =>
          rw [hend] at head
          cases head
  obtain ⟨ys, a, hall, hrest⟩ := hsplit
  have hbefore : ∀ x ∈ xs, decide (x.span.start < s.skipBlanks o) = true := by
    intro x hx
    have := h.start_lt x hx
    have := s.le_skipBlanks o
    simp only [decide_eq_true_eq]
    omega
  have hbehind : ∀ y ∈ ys, ¬ decide (y.span.start < s.skipBlanks o) = true := by
    intro y hy
    have := hrest.le_start y hy
    simp only [decide_eq_true_eq]
    omega
  have hfilter := congrArg (List.filter fun x => decide (x.span.start < s.skipBlanks o)) hall
  rw [List.filter_append, List.filter_eq_self.2 hbefore, List.filter_eq_nil_iff.2 hbehind,
    List.append_nil, List.filter_map] at hfilter
  exact hfilter

end Source

/-! ## The place where a source parts from a sentence -/

namespace Trial

/-- A source that is held against a sentence from which it parts. -/
def forked (cx : Context) (f : Miss) : Trial where
  cx := cx
  fork? := some f
  unlimited := nofun
  roomy := nofun

theorem tracks_append {c : Trial} {xs : List Lexeme} {ks : List TokenKind} {a : Nat}
    (h : c.cx.source.Path o xs a) (hks : c.Tracks a ks) :
    c.Tracks o (xs.map Lexeme.kind ++ ks) := by
  induction h with
  | nil _ => exact hks
  | cons head _ ih => exact .token head (ih hks)

theorem tracks_of_absent (cx : Context) {k : TokenKind} (ks : List TokenKind)
    (h : ¬ ∃ x, cx.source.lexeme? o = some x ∧ x.kind = k) :
    (forked cx ⟨o, cx.source.skipBlanks o, .single k⟩).Tracks o (k :: ks) := by
  refine .parts rfl rfl rfl (fun x hx hk => h ⟨x, hx, ?_⟩) nofun
  exact (Option.some.inj hk).symm

/-- Every source agrees with every list of kinds all the way or up to some place. -/
theorem exists_fork (cx : Context) (o : Nat) (ks : List TokenKind) :
    ∃ f : Miss, cx.source.skipBlanks o ≤ f.offset ∧ (forked cx f).Tracks o ks := by
  induction ks generalizing o with
  | nil =>
      refine ⟨⟨o, cx.source.skipBlanks o, ∅⟩, Nat.le_refl _, ?_⟩
      cases hs : cx.source.isSpent o with
      | true => exact .spent hs
      | false => exact .parts rfl rfl rfl (by simp) fun _ => hs
  | cons k ks ih =>
      by_cases hhere : ∃ x, cx.source.lexeme? o = some x ∧ x.kind = k
      · obtain ⟨x, hx, rfl⟩ := hhere
        obtain ⟨f, hle, htrack⟩ := ih x.span.stop
        have := Source.lexeme?_bounds hx
        obtain ⟨hstart, _⟩ := Source.lexeme?_eq_some.1 hx
        have := cx.source.le_skipBlanks x.span.stop
        exact ⟨f, by omega, .token hx htrack⟩
      · exact ⟨_, Nat.le_refl _, tracks_of_absent cx ks hhere⟩

/-- A parse that misses knows what would have been next where the source parts from
a sentence. -/
theorem Tracks.covers {cx : Context} {goal : Goal} {f m : Miss} {s t : State}
    {ks : List TokenKind} (h : (forked cx f).Tracks 0 ks) (hks : Language.Sentence goal ks)
    (hδ : s.progress.depth = 1) (hrun : goal.matcher cx 0 s = .error (.miss m) t) :
    t.progress.Covers f := by
  have hfollows : (forked cx f).Follows 1 True (goal.matcher cx) ks []
      ((forked cx f).Started True) fun _ _ => True := goal_follows hks
  have hends := hfollows.ends hδ (by rwa [List.append_nil]) nofun
  rw [hrun] at hends
  cases hends with
  | miss h => exact h.elim
  | known h =>
      obtain ⟨_, hf, hcov⟩ := h
      cases hf
      exact hcov

end Trial

/-! ## Errors -/

namespace Parse

/-- Where something else should have come, the error is at the furthest miss, and
what was found there is there. -/
theorem errorAt_eq_unexpected {m : Miss} {expected : TokenSet} {found : Option TokenKind}
    (hb : s.Boundary m.offset) (h : (errorAt s m).cause = .unexpectedToken expected found) :
    expected = m.expected ∧ (errorAt s m).span.start = s.skipBlanks m.offset ∧
      ∀ k ∈ found, k.Answers s (s.skipBlanks m.offset) := by
  rw [errorAt] at h ⊢
  split at h
  · cases h
  · next hpeek =>
      cases h
      refine ⟨rfl, ?_, nofun⟩
      have hend := peek_eq_none.1 hpeek
      have hb' := Source.boundary_skipBlanks hb
      have := hb'.le_size
      have : ¬ s.skipBlanks m.offset < s.size := fun hlt => hend ⟨hb', hlt⟩
      simp only [Span.point]
      omega
  · cases h
  · next found span hk hpeek =>
      cases h
      obtain ⟨hstart, hm⟩ := (peek_eq_token hk).1 hpeek
      refine ⟨rfl, hstart, fun k hmem => ?_⟩
      cases hmem
      exact TokenKind.answers_of_matchAt hm

/-- If something else should have come, the matcher of the goal missed, and the
error is made from the furthest miss. -/
theorem exists_miss {goal : Goal} {l : Limits} {e : ParseError} {expected : TokenSet}
    {found : Option TokenKind} (h : parse goal s l = .error e)
    (hcause : e.cause = .unexpectedToken expected found) :
    ∃ m t far, goal.matcher ⟨s, l⟩ 0 ⟨.blank, Progress.none.deeper⟩ = .error (.miss m) t ∧
      t.progress.furthest = some far ∧ e = (errorAt s far).locate s := by
  obtain ⟨f, p, hout, rfl⟩ := parse_eq_error.1 h
  cases f with
  | fatal e =>
      have := isFatal_of_outcome hout
      rw [show e.cause = _ from hcause] at this
      cases this
  | miss m =>
      obtain ⟨t, hrun, rfl⟩ := run_of_outcome_miss hout
      obtain ⟨far, hf, herror⟩ := errorOf_miss hout
      exact ⟨m, t, far, hrun, hf, congrArg (ParseError.locate · s) herror⟩

end Parse

/-- Where something else should have come, an error expects what can come behind
the tokens before it, and nothing else, and what it found is not among it. -/
theorem mem_expected_iff {goal : Goal} {s : Source} {l : Limits} {e : ParseError}
    {expected : TokenSet} {found : Option TokenKind} (h : parse goal s l = .error e)
    (hcause : e.cause = .unexpectedToken expected found) :
    (∀ k, k ∈ expected ↔ ∃ v, Language.Sentence goal
      ((s.tokens.filter (·.span.start < e.span.start)).map Token.kind ++ k :: v)) ∧
      ∀ k ∈ found, k ∉ expected := by
  obtain ⟨m, t, far, hrun, hfar, rfl⟩ := Parse.exists_miss h hcause
  have hjustified := (goal.matcher_within ⟨s, l⟩).justified
    (s := ⟨.blank, Progress.none.deeper⟩) (.refl s 0)
    (fun w (hw : Language.Sentence goal w) => ⟨[], by simpa using hw⟩) nofun
  rw [hrun] at hjustified
  obtain ⟨us, o, hpath, (hplace : far.offset = s.skipBlanks o), hwanted⟩ := hjustified far hfar
  have hb : s.Boundary far.offset :=
    hplace ▸ Source.boundary_skipBlanks (hpath.boundary s.boundary_zero)
  obtain ⟨rfl, hstart, hfound⟩ := Parse.errorAt_eq_unexpected hb hcause
  have hbefore : ((s.tokens.filter (·.span.start < far.offset)).map Token.kind) =
      us.map Lexeme.kind := by
    have := congrArg (List.map Lexeme.kind) (hplace ▸ Source.tokens_before hpath)
    simpa [Token.lexeme, Function.comp_def] using this
  have hplace' : s.skipBlanks far.offset = far.offset := by
    rw [hplace, Source.skipBlanks_idem]
  rw [show (ParseError.locate _ s).span.start = far.offset from hstart.trans hplace', hbefore]
  refine ⟨fun k => ⟨fun hk => ?_, ?_⟩, fun k hk hmem => ?_⟩
  · obtain ⟨v, hv⟩ := (hwanted k hk).1
    exact ⟨v, by simpa using hv⟩
  · intro hex
    obtain ⟨v, hv⟩ := hex
    by_cases hhere : ∃ x, s.lexeme? o = some x ∧ x.kind = k
    · -- then the source parts from the sentence only behind the furthest miss
      obtain ⟨x, hx, rfl⟩ := hhere
      obtain ⟨f, hle, htrack⟩ := Trial.exists_fork ⟨s, l⟩ x.span.stop v
      have htrack' := Trial.tracks_append hpath (.token hx htrack)
      obtain ⟨far', hf, hcovers⟩ := htrack'.covers hv rfl hrun
      cases hfar.symm.trans hf
      have := Source.lexeme?_bounds hx
      obtain ⟨hat, _⟩ := Source.lexeme?_eq_some.1 hx
      have : x.span.stop ≤ f.offset := Nat.le_trans (s.le_skipBlanks _) hle
      have : f.offset ≤ far.offset := by omega
      omega
    · have htrack := Trial.tracks_append hpath (Trial.tracks_of_absent ⟨s, l⟩ v hhere)
      obtain ⟨far', hf, hcovers⟩ := htrack.covers hv rfl hrun
      cases hfar.symm.trans hf
      rcases hcovers with hlt | ⟨_, hall⟩
      · simp only at hlt
        omega
      · exact hall k (TokenSet.mem_single.2 rfl)
  · exact (hwanted k hmem).2 (hplace' ▸ hfound k hk)

open TokenKind in
/-- An item of a list is followed by a comma or by the bracket, and by nothing
else. -/
theorem mem_expected_iff_item :
    (∃ e, parse .value ⟨"[1:"⟩ = .error e ∧ e.cause = .unexpectedToken
        (.ofList [symbol .listSeparator, symbol .listEnd]) (some (symbol .define))) ∧
      ∀ k, k ∈ TokenSet.ofList [symbol .listSeparator, symbol .listEnd] ↔
        ∃ v, Language.Sentence .value (symbol .listStart :: integer :: k :: v) := by
  have h : parse .value ⟨"[1:"⟩ = .error
      { cause := .unexpectedToken (.ofList [symbol .listSeparator, symbol .listEnd])
          (some (symbol .define)),
        span := ⟨2, 3⟩,
        location := some ⟨1, 3⟩ } := by
    cbv
  have htokens : (Source.tokens ⟨"[1:"⟩).filter (·.span.start < 2) =
      [⟨symbol .listStart, "[", ⟨0, 1⟩, ⟨1, 1⟩⟩, ⟨integer, "1", ⟨1, 2⟩, ⟨1, 2⟩⟩] := by
    cbv
  refine ⟨⟨_, h, rfl⟩, fun k => ?_⟩
  have hk := (mem_expected_iff h rfl).1 k
  rwa [show _ = _ from htokens] at hk

end WeLang
