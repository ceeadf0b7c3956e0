import WeLang.Proofs.Lines
import WeLang.Proofs.Scanning

/-!
# Where the scanner stops

The path through a source ends where no token can be read. If more than blanks is left
there, the source is stuck, and there are two ways to be stuck: at a string that is not
closed, and at a character with which no token begins (`Source.Stuck`). The scanner says
which, and where in lines and columns, and `tokenize` passes that on. So the errors of
`tokenize` are known without the scanner: they are what the end of the path has to say
(`tokenize_eq_error`).

A scanner that knows its place goes on knowing it, and gives every token the place where
the token starts, so a token carries nothing that cannot be read off the source
(`tokens_eq_of_path`).
-/

namespace WeLang

variable {s : Source} {sc next : Scanner} {o o' : Nat} {us : List Lexeme}

/-! ## Places along the way -/

namespace Scanner

theorem Placed.noteCollision (h : sc.Placed s) (t : Token) : (sc.noteCollision s t).Placed s := by
  rw [Scanner.noteCollision]
  split
  · exact h
  · split
    · exact h
    · exact ⟨h.boundary, h.location⟩

theorem Placed.withToken (h : sc.Placed s) (t : Token) : Placed s { sc with token := t } :=
  ⟨h.boundary, h.location⟩

/-- Over the blanks a placed scanner comes to the place where the next token starts. -/
theorem Placed.skip (h : sc.Placed s) :
    (sc.moveTo s (s.skipBlanks sc.position)).Placed s ∧
      (sc.moveTo s (s.skipBlanks sc.position)).location =
        s.placeAt (s.skipBlanks sc.position) := by
  have hmoved := h.moveTo (Source.boundary_skipBlanks h.boundary)
  refine ⟨hmoved, ?_⟩
  rw [hmoved.location, moveTo_position, Nat.max_eq_right (s.le_skipBlanks _)]

theorem Placed.advance (h : sc.Placed s) {t : Token}
    (hadv : sc.advance s = .ok (some t) next) :
    t.location = s.placeAt t.span.start ∧ next.Placed s := by
  obtain ⟨hmoved, hplace⟩ := h.skip
  rw [Scanner.advance] at hadv
  simp only at hadv
  split at hadv
  · cases hadv
  · split at hadv
    · cases hadv
    · next hm =>
        cases hadv
        have hstop := (TokenKind.matchAt_bounds (matchToken_eq_token.1 hm)).2.2
        exact ⟨hplace, ((hmoved.noteCollision _).withToken _).moveTo hstop⟩
    · cases hadv
      exact ⟨hplace, hmoved.withToken _⟩

end Scanner

/-! ## What is wrong where the path ends -/

/-- The error of a source of which nothing can be read from an offset on, and not for
want of anything but blanks. -/
inductive Source.Stuck (s : Source) (o : Nat) : LexError → Prop
  | unclosed (opened : s.OpenString o) :
      Stuck s o ⟨.unterminatedString, ⟨s.skipBlanks o, s.size⟩,
        some (s.placeAt (s.skipBlanks o))⟩
  | unknown {c : Char} (here : s.char? (s.skipBlanks o) = some c)
      (nothing : ∀ k : TokenKind, ¬ k.Answers s (s.skipBlanks o)) :
      Stuck s o ⟨.unknownSymbol c, ⟨s.skipBlanks o, s.skipBlanks o + c.utf8Size⟩,
        some (s.placeAt (s.skipBlanks o))⟩

namespace Source

theorem Stuck.lexeme? {e : LexError} (h : s.Stuck o e) : s.lexeme? o = none := by
  cases hx : s.lexeme? o with
  | none => rfl
  | some x =>
      exfalso
      cases h with
      | unclosed opened => exact not_openString_of_lexeme? hx opened
      | unknown _ nothing =>
          exact nothing _ (TokenKind.answers_of_matchAt (lexeme?_eq_some.1 hx).2.1)

theorem Stuck.lt_size {e : LexError} (h : s.Stuck o e) : s.skipBlanks o < s.size := by
  cases h with
  | unclosed opened => exact (TokenKind.boundary_of_answers opened.answers).2
  | unknown here _ => exact (char?_isSome.1 (Option.isSome_iff_exists.2 ⟨_, here⟩)).2

theorem spent_or_stuck (ho : s.Boundary o) (h : s.lexeme? o = none) :
    s.isSpent o = true ∨ ∃ e, s.Stuck o e := by
  cases hs : s.isSpent o with
  | true => exact .inl rfl
  | false =>
      refine .inr ?_
      simp only [isSpent, decide_eq_false_iff_not] at hs
      cases hm : matchToken s (s.skipBlanks o) with
      | error e => exact ⟨_, .unclosed (matchToken_eq_error.1 hm).1⟩
      | ok found? =>
          cases found? with
          | none =>
              have hchar := char?_isSome.2 ⟨boundary_skipBlanks ho, Nat.lt_of_not_le hs⟩
              obtain ⟨c, hc⟩ := Option.isSome_iff_exists.1 hchar
              exact ⟨_, .unknown hc (matchToken_eq_none.1 hm)⟩
          | some found =>
              obtain ⟨kind, stop⟩ := found
              rw [lexeme?_of_matchToken hm] at h
              cases h

end Source

namespace Scanner

/-- Where a source is stuck, the scanner gives up. -/
theorem remaining_of_stuck (hsc : sc.Placed s) {e : LexError} (h : s.Stuck sc.position e) :
    sc.remaining s = .error e := by
  obtain ⟨_, hplace⟩ := hsc.skip
  have hleft := h.lt_size
  rw [remaining, advance]
  simp only
  rw [if_neg (by omega)]
  cases h with
  | unclosed opened =>
      rw [matchToken_eq_error.2 ⟨opened, rfl⟩, hplace]
      rfl
  | unknown here nothing =>
      rw [matchToken_eq_none.2 nothing, here]
      simp [hplace]

theorem remaining_of_path (hsc : sc.Placed s) {e : LexError} (h : s.Path sc.position us o)
    (he : s.Stuck o e) : sc.remaining s = .error e := by
  induction us generalizing sc with
  | nil =>
      cases h
      exact remaining_of_stuck hsc he
  | cons x us ih =>
      cases h with
      | cons head tail =>
          have hbounds := Source.lexeme?_bounds head
          obtain ⟨t, next, hadv, rfl, hpos⟩ := advance_of_lexeme? head
          have hk : t.kind ≠ .unknown := Source.kind_ne_unknown head
          rw [remaining, hadv]
          simp only [hk, if_false]
          rw [if_pos ⟨by omega, by omega⟩, ih (hsc.advance hadv).2 (hpos ▸ tail)]
          rfl

theorem location_of_mem_tokens (hsc : sc.Placed s) :
    ∀ t ∈ sc.tokens s, t.location = s.placeAt t.span.start := by
  fun_induction tokens sc s with
  | case1 sc t next hadv _ ih =>
      have h := hsc.advance hadv
      exact List.forall_mem_cons.2 ⟨h.1, ih h.2⟩
  | case2 => exact fun _ ht => nomatch ht
  | case3 => exact fun _ ht => nomatch ht

end Scanner

/-! ## The tokens and the error of a source -/

/-- A token at its place. -/
def Source.tokenOf (s : Source) (x : Lexeme) : Token :=
  ⟨x.kind, x.text, x.span, s.placeAt x.span.start⟩

namespace Source

theorem Path.eq_of_end {xs ys : List Lexeme} {a b : Nat} (h : s.Path o xs a)
    (h' : s.Path o ys b) (ha : s.lexeme? a = none) (hb : s.lexeme? b = none) :
    xs = ys ∧ a = b := by
  have hnil {a b : Nat} {zs : List Lexeme} (hz : s.Path a zs b) (ha : s.lexeme? a = none) :
      zs = [] ∧ a = b := by
    cases hz with
    | nil _ => exact ⟨rfl, rfl⟩
    | cons head _ => cases ha.symm.trans head
  rcases h.total h' with ⟨zs, rfl, hz⟩ | ⟨zs, rfl, hz⟩
  · obtain ⟨rfl, rfl⟩ := hnil hz ha
    exact ⟨by simp, rfl⟩
  · obtain ⟨rfl, rfl⟩ := hnil hz hb
    exact ⟨by simp, rfl⟩

theorem tokens_eq_of_path (h : s.Path 0 us o) (ho : s.lexeme? o = none) :
    s.tokens = us.map s.tokenOf := by
  obtain ⟨o', hpath, ho'⟩ := Scanner.initial.path_tokens s
  obtain ⟨rfl, rfl⟩ := hpath.eq_of_end h ho' ho
  rw [List.map_map]
  refine (List.map_id' _).symm.trans (List.map_congr_left fun t ht => ?_)
  have hplace := Scanner.location_of_mem_tokens (Scanner.placed_initial s) t ht
  show t = ⟨t.kind, t.text, t.span, s.placeAt t.span.start⟩
  rw [← hplace]

end Source

/-- A source cannot be cut into tokens if it is stuck where the path ends. -/
theorem tokenize_eq_error {e : LexError} :
    tokenize s = .error e ↔ ∃ us o, s.Path 0 us o ∧ s.Stuck o e := by
  have hstuck {us : List Lexeme} {o : Nat} {e : LexError} (h : s.Path 0 us o)
      (he : s.Stuck o e) : tokenize s = .error e :=
    Scanner.remaining_of_path (Scanner.placed_initial s) h he
  constructor
  · intro h
    obtain ⟨o, hpath, ho⟩ := Scanner.initial.path_tokens s
    rcases Source.spent_or_stuck (hpath.boundary s.boundary_zero) ho with hs | ⟨e', he'⟩
    · obtain ⟨ts, hok, _⟩ := exists_tokenize_of_reads ⟨o, hpath, hs⟩
      cases hok.symm.trans h
    · cases h.symm.trans (hstuck hpath he')
      exact ⟨_, o, hpath, he'⟩
  · intro hex
    obtain ⟨us, o, hpath, he⟩ := hex
    exact hstuck hpath he

end WeLang
