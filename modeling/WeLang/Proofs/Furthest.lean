import WeLang.Proofs.Advancing
import WeLang.Proofs.Failing
import WeLang.Proofs.Keeping

/-!
# The furthest miss has the last word

A parse that finds no way to read its source has missed twice over: its pattern says how
it missed, and the progress says what was the furthest miss of all attempts. The two are
put together by different hands, the first by sequences and choices, the second by
whoever misses a token. But the second is never behind the first
(`Parse.covers_of_miss`), so an error is made from it alone.

The furthest miss is at a place on the path, and there either the source has come to its
end, or the scanner comes to the same token (`Parse.found_of_errorAt`). At the end
something is always expected: the only one to miss without wanting anything is the
pattern for the end of the source, and it misses only where more is left
(`Progress.Wanting`).
-/

namespace WeLang

variable {cx : Context} {s : Source} {goal : Goal} {m f : Miss} {p : Progress}

/-! ## The progress knows of the miss -/

theorem Parse.covers_of_miss (h : outcome goal cx = .error (.miss m) p) : p.Covers m := by
  obtain ⟨t, hrun, rfl⟩ := run_of_outcome_miss h
  have hkept := goal.matcher_lawful cx 0 ⟨.blank, Progress.none.deeper⟩
  rw [hrun] at hkept
  cases hkept with
  | miss _ _ _ covers _ => exact covers

/-! ## Something is wanted at the end -/

namespace Progress

/-- At the furthest miss more is left, or something is wanted. -/
def Wanting (src : Source) (p : Progress) : Prop :=
  ∀ f, p.furthest = some f → f.offset < src.size ∨ ∃ k, k ∈ f.expected

theorem Wanting.noteMiss {offset : Nat} {expected : TokenSet} (h : p.Wanting s)
    (hnew : offset < s.size ∨ ∃ k, k ∈ expected) : (p.noteMiss offset expected).Wanting s := by
  intro f hf
  cases hseen : p.furthest with
  | none =>
      simp only [Progress.noteMiss, hseen, Option.some.injEq] at hf
      subst hf
      exact hnew
  | some seen =>
      simp only [Progress.noteMiss, hseen, Option.some.injEq] at hf
      subst hf
      simp only [Miss.offset_merge, Miss.mem_merge]
      rcases Nat.lt_or_ge offset seen.offset with hlt | hge
      · refine (h seen hseen).imp (fun hleft => ?_) fun hk => ?_
        · omega
        · obtain ⟨k, hk⟩ := hk
          exact ⟨k, .inl ⟨by omega, hk⟩⟩
      · refine hnew.imp (fun hleft => ?_) fun hk => ?_
        · omega
        · obtain ⟨k, hk⟩ := hk
          exact ⟨k, .inr ⟨hge, hk⟩⟩

theorem wanting_stable (cx : Context) : Stable cx fun _ p => p.Wanting cx.source where
  back h := h
  nest _ h := h
  spend h := h
  found _ _ h := by
    rw [Wanting, furthest_noteCollision]
    exact h
  missing _ _ h := h.noteMiss (.inr ⟨_, TokenSet.mem_single.2 rfl⟩)
  left _ hleft h := by
    refine h.noteMiss (.inl ?_)
    simpa [Source.isSpent] using hleft

end Progress

/-! ## What is found there -/

namespace Parse

variable {us : List Lexeme} {o : Nat}

/-- What is found at a place on the path where something else should have come. -/
inductive Found (s : Source) (o : Nat) : Option TokenKind → Span → Prop
  | nothing (spent : s.skipBlanks o = s.size) : Found s o none (.point s.size)
  | token {x : Lexeme} (here : s.lexeme? o = some x) : Found s o (some x.kind) x.span

/-- Where something else should have come, an error wants what the miss wants, and tells
what is there. -/
theorem found_of_errorAt (hpath : s.Path 0 us o) (hm : m.offset = s.skipBlanks o)
    {expected : TokenSet} {found : Option TokenKind}
    (h : (errorAt s m).cause = .unexpectedToken expected found) :
    expected = m.expected ∧ Found s o found (errorAt s m).span := by
  have hskip : s.skipBlanks m.offset = s.skipBlanks o := by
    rw [hm, s.skipBlanks_idem]
  rw [errorAt] at h ⊢
  split at h
  · cases h
  · next hpeek =>
      cases h
      have hend := peek_eq_none.1 hpeek
      rw [hskip] at hend
      have hb := Source.boundary_skipBlanks (hpath.boundary s.boundary_zero)
      have := hb.le_size
      have : ¬ s.skipBlanks o < s.size := fun hlt => hend ⟨hb, hlt⟩
      exact ⟨rfl, .nothing (by omega)⟩
  · cases h
  · next found span hk hpeek =>
      cases h
      obtain ⟨x, hx, rfl, rfl⟩ := (Source.lexeme?_eq_peek hk).2 hpeek
      rw [Source.lexeme?_congr hskip] at hx
      exact ⟨rfl, .token hx⟩

end Parse

/-- A parse that misses fails at the furthest miss, which is not before the miss and wants
all that is wanted there. If something else should have come, the error expects what the
furthest miss wants. At the end of the source it finds nothing, and expects something.
Anywhere else it finds the token that a scanner gives there. -/
theorem furthest_of_miss {goal : Goal} {s : Source} {l : Limits} {m : Miss} {p : Progress}
    (h : Parse.outcome goal ⟨s, l⟩ = .error (.miss m) p) :
    ∃ f e, p.furthest = some f ∧ m.offset ≤ f.offset ∧
      (m.offset = f.offset → ∀ k, k ∈ m.expected → k ∈ f.expected) ∧
      parse goal s l = .error e ∧ e = (Parse.errorAt s f).locate s ∧
      ∀ expected found, e.cause = .unexpectedToken expected found →
        expected = f.expected ∧ (found = none ↔ f.offset = s.size) ∧
        (found = none → e.span = .point s.size ∧ ∃ k, k ∈ expected) ∧
        ∀ k, found = some k → ∃ n t next, (s.scanned n).advance s = .ok (some t) next ∧
          t.kind = k ∧ t.span = e.span ∧ t.span.start = f.offset := by
  obtain ⟨f, hf, hcovers⟩ := Parse.covers_of_miss h
  obtain ⟨f', hf', herror⟩ := Parse.errorOf_miss h
  obtain rfl := Option.some.inj (hf.symm.trans hf')
  have hparse : parse goal s l = .error ((Parse.errorAt s f).locate s) :=
    parse_eq_error.2 ⟨_, _, h, congrArg (ParseError.locate · s) herror.symm⟩
  refine ⟨f, _, hf, by omega, fun heq k hk => ?_, hparse, rfl, fun expected found hcause => ?_⟩
  · exact (hcovers.resolve_left (by omega)).2 k hk
  · obtain ⟨us, o, (hpath : s.Path 0 us o), (hplace : f.offset = s.skipBlanks o), -⟩ :=
      Parse.justified_of_miss h f hf
    have hwanting : p.Wanting s :=
      Parse.holds_of_miss (Progress.wanting_stable ⟨s, l⟩) nofun h
    obtain ⟨rfl, hfound⟩ := Parse.found_of_errorAt hpath hplace hcause
    have hspan : ((Parse.errorAt s f).locate s).span = (Parse.errorAt s f).span := rfl
    rw [hspan]
    generalize (Parse.errorAt s f).span = span at hfound
    cases hfound with
    | nothing spent =>
        have hwanted := (hwanting f hf).resolve_left (by omega)
        exact ⟨rfl, by simp [hplace, spent], fun _ => ⟨rfl, hwanted⟩, nofun⟩
    | @token x here =>
        obtain ⟨hstart, -⟩ := Source.lexeme?_eq_some.1 here
        have hbounds := Source.lexeme?_bounds here
        refine ⟨rfl, ⟨nofun, fun _ => by omega⟩, nofun, fun k hk => ?_⟩
        cases hk
        obtain ⟨t, next, hadv, rfl⟩ := hpath.advance here
        exact ⟨_, t, next, hadv, rfl, rfl, hstart.trans hplace.symm⟩

/-- In a list, a colon behind an item: it is a token that the scanner gives. -/
theorem furthest_of_miss_item :
    ∃ m p f e, Parse.outcome .value ⟨⟨"[1:"⟩, .standard⟩ = .error (.miss m) p ∧
      p.furthest = some f ∧ f.offset = 2 ∧ parse .value ⟨"[1:"⟩ = .error e ∧
      ∃ n t next, (Source.scanned ⟨"[1:"⟩ n).advance ⟨"[1:"⟩ = .ok (some t) next ∧
        t.kind = .symbol .define ∧ t.span = ⟨2, 3⟩ := by
  obtain ⟨m, p, h, hfar⟩ : ∃ m p, Parse.outcome .value ⟨⟨"[1:"⟩, .standard⟩ =
      .error (.miss m) p ∧ p.furthest.map Miss.offset = some 2 :=
    ⟨_, _, by cbv, rfl⟩
  have hparse : parse .value ⟨"[1:"⟩ = .error
      { cause := .unexpectedToken
          (.ofList [.symbol .listSeparator, .symbol .listEnd]) (some (.symbol .define)),
        span := ⟨2, 3⟩,
        location := some ⟨1, 3⟩ } := by
    cbv
  obtain ⟨f, e, hf, -, -, he, -, herror⟩ := furthest_of_miss h
  cases hparse.symm.trans he
  obtain ⟨-, -, -, hfound⟩ := herror _ _ rfl
  obtain ⟨n, t, next, hadv, hkind, hspan, -⟩ := hfound _ rfl
  have hplace : f.offset = 2 := by simpa [hf] using hfar
  exact ⟨m, p, f, _, h, hf, hplace, he, n, t, next, hadv, hkind, hspan⟩

end WeLang
