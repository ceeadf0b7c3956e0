import WeLang.Proofs.Places

/-!
# A scanner goes on or rests

What a scanner does next is what `peek` sees where it is. If that is a token, the scanner
takes it and goes on to its end. If it is anything else, the scanner goes over the blanks
and stays there, and from then on it rests: asked again it says the same again and is left
as it was (`Scanner.advance_next`).

So there are at most as many steps that go on as there are bytes, and `tokenize`, which
asks until the scanner rests, asks once more at most. `Scanner.remainingWithin` is
`tokenize` with its steps counted, and with no look at where the scanner is.
-/

namespace WeLang

variable {s : Source} {sc : Scanner} {k : TokenKind} {span : Span}

namespace Scanner

/-! ## A step, by what can be seen -/

/-- A scanner that has gone over the blanks. -/
def skipped (sc : Scanner) (s : Source) : Scanner :=
  sc.moveTo s (s.skipBlanks sc.position)

/-- The token that a scanner makes of what it sees behind the blanks. -/
def found (sc : Scanner) (s : Source) (k : TokenKind) (span : Span) : Token :=
  ⟨k, k.textOf s span, span, (sc.skipped s).location⟩

theorem moveTo_of_le {target : Nat} (h : target ≤ sc.position) : sc.moveTo s target = sc :=
  if_pos h

@[simp] theorem position_skipped (sc : Scanner) (s : Source) :
    (sc.skipped s).position = s.skipBlanks sc.position := by
  rw [skipped, moveTo_position, Nat.max_eq_right (s.le_skipBlanks _)]

@[simp] theorem token_skipped (sc : Scanner) (s : Source) : (sc.skipped s).token = sc.token :=
  moveTo_token ..

theorem Placed.skipped (h : sc.Placed s) : (sc.skipped s).Placed s :=
  h.skip.1

theorem skipped_of_eq (h : s.skipBlanks sc.position = sc.position) : sc.skipped s = sc :=
  moveTo_of_le (Nat.le_of_eq h)

theorem next_of_ok {found? : Option Token} {sc' : Scanner} (h : sc.advance s = .ok found? sc') :
    sc.next s = sc' := by
  rw [next, h]

theorem next_of_error {e : LexError} {sc' : Scanner} (h : sc.advance s = .error e sc') :
    sc.next s = sc' := by
  rw [next, h]

theorem next_congr {sc' : Scanner} (h : sc.advance s = sc'.advance s) :
    sc.next s = sc'.next s := by
  rw [next, next, h]

/-- A token is taken, and the scanner goes on to its end. -/
theorem advance_of_token (hk : k ≠ .unknown)
    (h : peek s sc.position = .ok (some (k, span))) :
    sc.advance s = .ok (some (sc.found s k span))
      ({ (sc.skipped s).noteCollision s (sc.found s k span) with
          token := sc.found s k span }.moveTo s span.stop) := by
  obtain ⟨start, stop⟩ := span
  obtain ⟨hstart, hm⟩ := (peek_eq_token hk).1 h
  simp only at hstart hm
  subst hstart
  have hleft := (TokenKind.boundary_of_answers (TokenKind.answers_of_matchAt hm)).2
  rw [advance]
  simp only [matchToken_eq_token.2 hm]
  rw [if_neg (by omega)]
  rfl

/-- At the end there is nothing to take. -/
theorem advance_of_end (hsc : sc.Placed s) (h : peek s sc.position = .ok none) :
    s.size ≤ s.skipBlanks sc.position ∧ sc.advance s = .ok none (sc.skipped s) := by
  have hboundary := Source.boundary_skipBlanks hsc.boundary
  have hend : s.size ≤ s.skipBlanks sc.position :=
    Nat.le_of_not_lt fun hlt => peek_eq_none.1 h ⟨hboundary, hlt⟩
  refine ⟨hend, ?_⟩
  rw [advance]
  exact if_pos hend

/-- An error is passed on, with the place where the scanner is. -/
theorem advance_of_error {e : LexError} (h : peek s sc.position = .error e) :
    sc.advance s = .error (e.withLocation (sc.skipped s).location) (sc.skipped s) := by
  have hm := matchToken_eq_error.2 (peek_eq_error.1 h)
  have hopen : s.OpenString sc.position := (peek_eq_error.1 h).1
  have hleft := (TokenKind.boundary_of_answers hopen.answers).2
  rw [advance]
  simp only [hm]
  rw [if_neg (by omega)]
  rfl

/-- An unknown character is told of, and not taken. -/
theorem advance_of_unknown (h : peek s sc.position = .ok (some (.unknown, span))) :
    sc.advance s = .ok (some (sc.found s .unknown span))
      { sc.skipped s with token := sc.found s .unknown span } := by
  obtain ⟨c, hc, hno, rfl⟩ := peek_eq_unknown.1 h
  have hleft := (Source.char?_isSome.1 (Option.isSome_iff_exists.2 ⟨c, hc⟩)).2
  have htext := Source.slice?_of_char? hc
  rw [advance]
  simp only [matchToken_eq_none.2 hno, hc, Option.getD_some]
  rw [if_neg (by omega)]
  simp only [found, TokenKind.textOf, htext, Option.getD_some]
  rfl

/-! ## Steps that do not -/

/-- What can be seen is not to be taken: the end, an unknown character or an error. -/
def Rests (s : Source) (sc : Scanner) : Prop :=
  ∀ k span, peek s sc.position = .ok (some (k, span)) → k = .unknown

theorem rests_iff : sc.Rests s ↔ s.lexeme? sc.position = none := by
  constructor
  · intro h
    cases hx : s.lexeme? sc.position with
    | none => rfl
    | some x =>
        have hk := h _ _ ((Source.lexeme?_eq_peek (Source.kind_ne_unknown hx)).1 ⟨x, hx, rfl, rfl⟩)
        exact absurd hk (Source.kind_ne_unknown hx)
  · intro hnone k span hp
    refine Classical.not_not.1 fun hk => ?_
    obtain ⟨x, hx, -⟩ := (Source.lexeme?_eq_peek hk).2 hp
    cases hnone.symm.trans hx

/-- Where a scanner rests, it goes over the blanks and no further. -/
theorem Rests.skipped_next (hsc : sc.Placed s) (h : sc.Rests s) :
    (sc.next s).position = s.skipBlanks sc.position ∧
      (sc.next s).location = (sc.skipped s).location ∧ (sc.next s).skipped s = sc.next s := by
  suffices hfields : (sc.next s).position = s.skipBlanks sc.position ∧
      (sc.next s).location = (sc.skipped s).location by
    refine ⟨hfields.1, hfields.2, skipped_of_eq ?_⟩
    rw [hfields.1, s.skipBlanks_idem]
  cases hp : peek s sc.position with
  | error e => simp [next_of_error (advance_of_error hp)]
  | ok found? =>
      cases found? with
      | none => simp [next_of_ok (advance_of_end hsc hp).2]
      | some seen =>
          obtain ⟨k, span⟩ := seen
          obtain rfl := h k span hp
          simp [next_of_ok (advance_of_unknown hp)]

/-- Where a scanner rests, it says the same again and is left as it is. -/
theorem Rests.advance_next (hsc : sc.Placed s) (h : sc.Rests s) :
    (sc.next s).Rests s ∧ (sc.next s).advance s = sc.advance s := by
  obtain ⟨hposition, hlocation, hskipped⟩ := h.skipped_next hsc
  have hplaced : (sc.next s).Placed s :=
    ⟨hposition ▸ Source.boundary_skipBlanks hsc.boundary,
      by rw [hlocation, hsc.skipped.location, position_skipped, hposition]⟩
  have hpeek : peek s (sc.next s).position = peek s sc.position := by
    simp only [hposition, peek, s.skipBlanks_idem]
  refine ⟨fun k span hseen => h k span (hpeek ▸ hseen), ?_⟩
  cases hp : peek s sc.position with
  | error e =>
      have hnext := next_of_error (advance_of_error hp)
      rw [advance_of_error hp, advance_of_error (hpeek.trans hp), hskipped, hnext]
  | ok found? =>
      cases found? with
      | none =>
          have hnext := next_of_ok (advance_of_end hsc hp).2
          rw [(advance_of_end hsc hp).2, (advance_of_end hplaced (hpeek.trans hp)).2, hskipped,
            hnext]
      | some seen =>
          obtain ⟨k, span⟩ := seen
          obtain rfl := h k span hp
          have hnext := next_of_ok (advance_of_unknown hp)
          have hfound : (sc.next s).found s .unknown span = sc.found s .unknown span := by
            rw [found, found, hskipped, hlocation]
          rw [advance_of_unknown hp, advance_of_unknown (hpeek.trans hp), hskipped, hfound, hnext]

/-! ## A step that goes on -/

/-- Where a token can be seen the next step takes it. -/
theorem next_of_token (hk : k ≠ .unknown) (h : peek s sc.position = .ok (some (k, span))) :
    sc.position < span.stop ∧ (sc.next s).position = span.stop ∧
      sc.advance s = .ok (some (sc.found s k span)) (sc.next s) ∧
      (sc.next s).token = sc.found s k span := by
  obtain ⟨x, hx, -, rfl⟩ := (Source.lexeme?_eq_peek hk).2 h
  have hbounds := Source.lexeme?_bounds hx
  have hstart := (Source.lexeme?_eq_some.1 hx).1
  have hadv := advance_of_token hk h
  have hlt : sc.position < x.span.stop := by omega
  rw [next_of_ok hadv]
  refine ⟨hlt, ?_, hadv, moveTo_token ..⟩
  simp only [moveTo_position, noteCollision_position, position_skipped]
  omega

theorem le_next (hsc : sc.Placed s) : sc.position ≤ (sc.next s).position := by
  by_cases h : sc.Rests s
  · rw [(h.skipped_next hsc).1]
    exact s.le_skipBlanks _
  · simp only [Rests, not_forall] at h
    obtain ⟨k, span, hp, hk⟩ := h
    obtain ⟨hlt, hstop, -⟩ := next_of_token hk hp
    omega

/-! ## Steps counted -/

/-- The tokens from here to the end, if so many steps are enough to come there. -/
def remainingWithin (s : Source) : Nat → Scanner → Option (Except LexError (List Token))
  | 0, _ => none
  | steps + 1, sc =>
      match sc.advance s with
      | .error e _ => some (.error e)
      | .ok none _ => some (.ok [])
      | .ok (some token) next =>
          if token.kind = .unknown then
            let c := token.text.toList.head?.getD '\x00'
            some (.error ⟨.unknownSymbol c, token.span, some token.location⟩)
          else (next.remainingWithin s steps).map (·.map (token :: ·))

/-- One step more than there are bytes left is enough. -/
theorem remainingWithin_eq {steps : Nat} (hsc : sc.Placed s)
    (h : s.size < sc.position + steps) : remainingWithin s steps sc = some (sc.remaining s) := by
  induction steps generalizing sc with
  | zero =>
      have := hsc.boundary.le_size
      omega
  | succ steps ih =>
      rw [remainingWithin, remaining]
      cases hp : peek s sc.position with
      | error e => rw [advance_of_error hp]
      | ok found? =>
          cases found? with
          | none => rw [(advance_of_end hsc hp).2]
          | some seen =>
              obtain ⟨k, span⟩ := seen
              by_cases hk : k = .unknown
              · subst hk
                rw [advance_of_unknown hp]
                rfl
              · obtain ⟨hlt, hstop, hadv, -⟩ := next_of_token hk hp
                have hnext := (hsc.advance hadv).2
                have hstop' := hnext.boundary.le_size
                have hkind : (sc.found s k span).kind ≠ .unknown := hk
                rw [hadv]
                simp only [hkind, if_false]
                rw [if_pos ⟨by omega, by omega⟩, ih hnext (by omega)]
                rfl

end Scanner

/-! ## All steps -/

namespace Source

variable {n : Nat}

/-- Once a scanner has come to rest, no step changes anything any more. -/
theorem scanned_of_rests (h : (s.scanned n).Rests s) {m : Nat} (hlt : n < m) :
    s.scanned m = s.scanned (n + 1) ∧ (s.scanned m).advance s = (s.scanned n).advance s := by
  have hagain := (h.advance_next (s.oriented_scanned n).placed).2
  suffices hsame : s.scanned m = s.scanned (n + 1) from ⟨hsame, hsame ▸ hagain⟩
  induction m, hlt using Nat.le_induction with
  | base => rfl
  | succ m _ ih =>
      rw [scanned, ih]
      exact Scanner.next_congr hagain

/-- From the step behind `n` on all steps are the same: the scanner says what it has said
then, and neither its place nor its token nor its collisions change. -/
def StaysFrom (s : Source) (n : Nat) : Prop :=
  ∀ m, n < m → s.scanned m = s.scanned (n + 1) ∧
    (s.scanned m).advance s = (s.scanned n).advance s

end Source

/-- What a scanner does is what can be seen from where it is, however it has come there. A
token is taken, and the scanner goes on to its end, which is further on. An unknown
character, the end or an error is told of; then the scanner stays where it is for good. A
scanner never goes back nor out of its source nor into a character, so that there are at
most as many steps to the last token as there are bytes, and one more is enough for
`tokenize` to end. -/
theorem advance_goes_on_or_rests (s : Source) (n : Nat) :
    (∀ k span, k ≠ .unknown → peek s (s.scanned n).position = .ok (some (k, span)) →
      ∃ t, (s.scanned n).advance s = .ok (some t) (s.scanned (n + 1)) ∧
        t.kind = k ∧ t.span = span ∧ (s.scanned (n + 1)).token = some t ∧
        (s.scanned (n + 1)).position = span.stop ∧ (s.scanned n).position < span.stop) ∧
    (∀ span, peek s (s.scanned n).position = .ok (some (.unknown, span)) →
      (∃ t, (s.scanned n).advance s = .ok (some t) (s.scanned (n + 1)) ∧
        t.kind = .unknown ∧ t.span = span ∧ (s.scanned (n + 1)).token = some t) ∧
      s.StaysFrom n) ∧
    (peek s (s.scanned n).position = .ok none →
      (s.scanned n).advance s = .ok none (s.scanned (n + 1)) ∧
        (s.scanned (n + 1)).position = s.size ∧
        (s.scanned (n + 1)).token = (s.scanned n).token ∧ s.StaysFrom n) ∧
    (∀ e, peek s (s.scanned n).position = .error e →
      (s.scanned n).advance s =
          .error (e.withLocation (s.scanned (n + 1)).location) (s.scanned (n + 1)) ∧
        (s.scanned (n + 1)).token = (s.scanned n).token ∧ s.StaysFrom n) ∧
    (s.scanned n).position ≤ (s.scanned (n + 1)).position ∧
    (s.scanned n).position ≤ s.size ∧ s.Boundary (s.scanned n).position ∧
    Scanner.initial.remainingWithin s (s.size + 1) = some (tokenize s) := by
  have hplaced := (s.oriented_scanned n).placed
  refine ⟨fun k span hk hp => ?_, fun span hp => ⟨⟨(s.scanned n).found s .unknown span, ?_⟩, ?_⟩,
    fun hp => ?_, fun e hp => ?_, Scanner.le_next hplaced, hplaced.boundary.le_size,
    hplaced.boundary, ?_⟩
  · obtain ⟨hlt, hstop, hadv, htoken⟩ := Scanner.next_of_token hk hp
    exact ⟨_, hadv, rfl, rfl, htoken, hstop, hlt⟩
  · have hadv := Scanner.advance_of_unknown hp
    rw [Source.scanned, Scanner.next_of_ok hadv]
    exact ⟨hadv, rfl, rfl, rfl⟩
  · refine fun m => Source.scanned_of_rests fun k span' hseen => ?_
    cases hseen.symm.trans hp
    rfl
  · obtain ⟨hend, hadv⟩ := Scanner.advance_of_end hplaced hp
    have hsize := (Source.boundary_skipBlanks hplaced.boundary).le_size
    rw [Source.scanned, Scanner.next_of_ok hadv, Scanner.position_skipped, Scanner.token_skipped]
    refine ⟨hadv, by omega, rfl, fun m => Source.scanned_of_rests fun k span hseen => ?_⟩
    cases hseen.symm.trans hp
  · have hadv := Scanner.advance_of_error hp
    rw [Source.scanned, Scanner.next_of_error hadv, Scanner.token_skipped]
    refine ⟨hadv, rfl, fun m => Source.scanned_of_rests fun k span hseen => ?_⟩
    cases hseen.symm.trans hp
  · exact Scanner.remainingWithin_eq (Scanner.placed_initial s) (by omega)

/-- A character that begins no token, behind a word: it is told of in the second step, and
the ninth leaves the scanner where the second has. -/
theorem advance_goes_on_or_rests_unknown :
    peek ⟨"use é"⟩ (Source.scanned ⟨"use é"⟩ 1).position = .ok (some (.unknown, ⟨4, 6⟩)) ∧
      Source.scanned ⟨"use é"⟩ 9 = Source.scanned ⟨"use é"⟩ 2 := by
  have hp : peek ⟨"use é"⟩ (Source.scanned ⟨"use é"⟩ 1).position =
      .ok (some (.unknown, ⟨4, 6⟩)) := by cbv
  have hstays := ((advance_goes_on_or_rests ⟨"use é"⟩ 1).2.1 ⟨4, 6⟩ hp).2
  exact ⟨hp, (hstays 9 (by decide)).1⟩

end WeLang
