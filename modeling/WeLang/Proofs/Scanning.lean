import WeLang.Proofs.Path

/-!
# The scanner walks the path

A step of the scanner is a step on the path: it gives the token that can be read
where the scanner is, and leaves the scanner behind it. If there is no such token
the scanner has nothing to give, or an unknown character, or an error, and
`tokenize` succeeds exactly if it is the first of these.
-/

namespace WeLang

variable {s : Source} {sc : Scanner}

/-- A token without the line and the column where it stands. -/
def Token.lexeme (t : Token) : Lexeme :=
  ⟨t.kind, t.text, t.span⟩

namespace Scanner

theorem moveTo_position (sc : Scanner) (s : Source) (target : Nat) :
    (sc.moveTo s target).position = max sc.position target := by
  rw [moveTo]
  split
  · omega
  · exact (Nat.max_eq_right (Nat.le_of_not_le ‹_›)).symm

@[simp] theorem noteCollision_position (sc : Scanner) (s : Source) (t : Token) :
    (sc.noteCollision s t).position = sc.position := by
  rw [noteCollision]
  split
  · rfl
  · split <;> rfl

theorem advance_of_lexeme? {x : Lexeme} (h : s.lexeme? sc.position = some x) :
    ∃ t next, sc.advance s = .ok (some t) next ∧ t.lexeme = x ∧ next.position = x.span.stop := by
  have hbounds := Source.lexeme?_bounds h
  obtain ⟨kind, text, start, stop⟩ := x
  obtain ⟨hstart, hm, htext⟩ := Source.lexeme?_eq_some.1 h
  simp only at hstart hm htext hbounds
  subst hstart htext
  rw [advance]
  simp only [matchToken_eq_token.2 hm]
  rw [if_neg (by omega)]
  refine ⟨_, _, rfl, rfl, ?_⟩
  have hle : sc.position ≤ stop := by omega
  have hle' := Nat.le_of_lt hbounds.2.1
  simp only [moveTo_position, noteCollision_position, Nat.max_eq_right hbounds.1,
    Nat.max_eq_right hle']

theorem advance_of_isSpent (h : s.isSpent sc.position = true) :
    ∃ next, sc.advance s = .ok none next := by
  rw [advance]
  rw [if_pos (by simpa [Source.isSpent] using h)]
  exact ⟨_, rfl⟩

/-- Where there is no token the scanner does not go on, and if something other
than blanks is left it says what. -/
theorem advance_of_stuck (h : s.lexeme? sc.position = none) (hs : s.isSpent sc.position = false) :
    (∃ e next, sc.advance s = .error e next) ∨
      ∃ t next, sc.advance s = .ok (some t) next ∧ t.kind = .unknown := by
  rw [advance]
  simp only [Source.isSpent, decide_eq_false_iff_not] at hs
  rw [if_neg hs]
  simp only []
  cases hm : matchToken s (s.skipBlanks sc.position) with
  | error e => exact .inl ⟨_, _, rfl⟩
  | ok found? =>
      cases found? with
      | none => exact .inr ⟨_, _, rfl, rfl⟩
      | some found =>
          obtain ⟨kind, stop⟩ := found
          rw [Source.lexeme?_of_matchToken hm] at h
          cases h

/-- The tokens that a scanner gives from here on, up to the first place from which
it does not go on. -/
def tokens (sc : Scanner) (s : Source) : List Token :=
  match sc.advance s with
  | .ok (some token) next =>
      if token.kind ≠ .unknown ∧ sc.position < next.position ∧ sc.position < s.size then
        token :: next.tokens s
      else []
  | _ => []
termination_by s.size - sc.position
decreasing_by omega

theorem tokens_of_lexeme? {x : Lexeme} (h : s.lexeme? sc.position = some x) :
    ∃ t next, sc.advance s = .ok (some t) next ∧ t.lexeme = x ∧ next.position = x.span.stop ∧
      sc.tokens s = t :: next.tokens s := by
  have hbounds := Source.lexeme?_bounds h
  obtain ⟨t, next, hadv, rfl, hpos⟩ := advance_of_lexeme? h
  refine ⟨t, next, hadv, rfl, hpos, ?_⟩
  have hk : t.kind ≠ .unknown := Source.kind_ne_unknown h
  rw [tokens, hadv]
  exact if_pos ⟨hk, by omega, by omega⟩

theorem tokens_of_stuck (h : s.lexeme? sc.position = none) : sc.tokens s = [] := by
  rw [tokens]
  cases hs : s.isSpent sc.position with
  | true =>
      obtain ⟨next, hadv⟩ := advance_of_isSpent hs
      rw [hadv]
  | false =>
      rcases advance_of_stuck h hs with ⟨e, next, hadv⟩ | ⟨t, next, hadv, hk⟩
      · rw [hadv]
      · rw [hadv]
        simp [hk]

/-- The tokens of a scanner are those of the path from where it is, and the path
ends with them. -/
theorem path_tokens (sc : Scanner) (s : Source) :
    ∃ o, s.Path sc.position ((sc.tokens s).map Token.lexeme) o ∧ s.lexeme? o = none := by
  cases h : s.lexeme? sc.position with
  | none =>
      rw [tokens_of_stuck h]
      exact ⟨_, .nil _, h⟩
  | some x =>
      have hbounds := Source.lexeme?_bounds h
      obtain ⟨t, next, _, rfl, hpos, htokens⟩ := tokens_of_lexeme? h
      have : s.size - next.position < s.size - sc.position := by omega
      obtain ⟨o, hpath, hend⟩ := path_tokens next s
      rw [htokens]
      rw [hpos] at hpath
      exact ⟨o, .cons h hpath, hend⟩
termination_by s.size - sc.position

theorem remaining_of_reads (sc : Scanner) {xs : List Lexeme} (h : s.Reads sc.position xs) :
    sc.remaining s = .ok (sc.tokens s) := by
  induction xs generalizing sc with
  | nil =>
      have hs := Source.Reads.nil_iff.1 h
      obtain ⟨next, hadv⟩ := advance_of_isSpent hs
      rw [tokens_of_stuck (Source.lexeme?_of_isSpent hs), remaining, hadv]
  | cons x xs ih =>
      obtain ⟨hx, hxs⟩ := Source.Reads.cons_iff.1 h
      have hbounds := Source.lexeme?_bounds hx
      obtain ⟨t, next, hadv, rfl, hpos, htokens⟩ := tokens_of_lexeme? hx
      have hk : t.kind ≠ .unknown := Source.kind_ne_unknown hx
      rw [htokens, remaining, hadv]
      simp only [hk, if_false]
      rw [if_pos ⟨by omega, by omega⟩, ih next (hpos ▸ hxs)]
      rfl

theorem reads_of_remaining (sc : Scanner) {ts : List Token} (h : sc.remaining s = .ok ts) :
    s.Reads sc.position (ts.map Token.lexeme) := by
  cases hx : s.lexeme? sc.position with
  | none =>
      rw [remaining] at h
      cases hs : s.isSpent sc.position with
      | true =>
          obtain ⟨next, hadv⟩ := advance_of_isSpent hs
          rw [hadv] at h
          cases h
          exact Source.Reads.nil_iff.2 hs
      | false =>
          rcases advance_of_stuck hx hs with ⟨e, next, hadv⟩ | ⟨t, next, hadv, hk⟩
          · rw [hadv] at h
            cases h
          · rw [hadv] at h
            simp [hk] at h
  | some x =>
      have hbounds := Source.lexeme?_bounds hx
      obtain ⟨t, next, hadv, rfl, hpos⟩ := advance_of_lexeme? hx
      have : s.size - next.position < s.size - sc.position := by omega
      rw [remaining, hadv] at h
      simp only [] at h
      split at h
      · cases h
      · rw [if_pos ⟨by omega, by omega⟩] at h
        cases hrest : next.remaining s with
        | error e =>
            rw [hrest] at h
            cases h
        | ok rest =>
            rw [hrest] at h
            cases h
            have hreads := reads_of_remaining next hrest
            rw [hpos] at hreads
            exact Source.Reads.cons_iff.2 ⟨hx, hreads⟩
termination_by s.size - sc.position

end Scanner

/-- The tokens that a scanner finds in a source before it cannot go on. -/
def Source.tokens (s : Source) : List Token :=
  Scanner.initial.tokens s

/-- A source can be cut into tokens if nothing but blanks is left where the path
ends. -/
theorem tokenize_eq_ok {ts : List Token} :
    tokenize s = .ok ts ↔ ts = s.tokens ∧ s.Reads 0 (ts.map Token.lexeme) := by
  constructor
  · intro h
    have hreads := Scanner.reads_of_remaining .initial h
    have := Scanner.remaining_of_reads .initial hreads
    exact ⟨Except.ok.inj (h.symm.trans this), hreads⟩
  · intro h
    obtain ⟨rfl, h⟩ := h
    exact Scanner.remaining_of_reads .initial h

theorem exists_tokenize_of_reads {xs : List Lexeme} (h : s.Reads 0 xs) :
    ∃ ts, tokenize s = .ok ts ∧ ts.map Token.lexeme = xs := by
  have hok := Scanner.remaining_of_reads .initial h
  exact ⟨_, hok, (Scanner.reads_of_remaining .initial hok).unique h⟩

end WeLang
