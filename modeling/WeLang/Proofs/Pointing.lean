import WeLang.Proofs.Content
import WeLang.Proofs.Cutting
import WeLang.Proofs.Failing
import WeLang.Proofs.Quoting

/-!
# What an error points at

An error names a cause and points at a stretch of the source, and the two belong together:
what stands there is what the cause is about (`ParseError.Fits`). A reader of the error, or
of the source, need not know how the parse came there, so nothing of a parse is in this.

There are three ways to come to an error. A miss is explained by what stands where it got
furthest. Limits and strings that are not closed can break a parse off wherever it has come
on the path, and it has come nowhere but between two characters. The rest are errors of
content, which point at the token that they are about (`Parse.faulty_of_outcome`).
-/

namespace WeLang

variable {cx : Context} {goal : Goal} {s : Source} {l : Limits} {e : ParseError} {o o' : Nat}

/-! ## Stretches of a source -/

/-- A stretch of a source from between two characters to between two others. -/
structure Source.Spans (s : Source) (span : Span) : Prop where
  order : span.start ≤ span.stop
  bound : span.stop ≤ s.size
  start : s.Boundary span.start
  stop : s.Boundary span.stop

namespace Source

theorem spans_point (h : s.Boundary o) : s.Spans (.point o) :=
  ⟨Nat.le_refl o, h.le_size, h, h⟩

theorem spans_of_lexeme? {x : Lexeme} (h : s.lexeme? o = some x) : s.Spans x.span := by
  obtain ⟨-, hlt, hsize, hstart, hstop⟩ := lexeme?_bounds h
  exact ⟨Nat.le_of_lt hlt, hsize, hstart, hstop⟩

theorem spans_of_slice? {span : Span} {text : String}
    (h : s.slice? span.start span.stop = some text) : s.Spans span := by
  obtain ⟨hstart, hstop, hle, -⟩ := slice?_eq_some.1 h
  exact ⟨hle, hstop.le_size, hstart, hstop⟩

/-- Where a parse has come there is no character to be cut. -/
theorem Reached.boundary (h : s.Reached o) : s.Boundary o := by
  obtain ⟨us, m, hpath, hm⟩ := h
  have hend := boundary_skipBlanks (hpath.boundary s.boundary_zero)
  rw [hm] at hend
  rcases Nat.eq_or_lt_of_le (s.le_skipBlanks o) with heq | hlt
  · exact heq ▸ hend
  · obtain ⟨b, hb, hblank⟩ := byteIn_iff.1 (byteIn_skipWhile (Nat.le_refl o) hlt)
    exact boundary_of_ascii hb (ByteClass.ascii_of_isBlank hblank)

theorem Entries.le_start {xs : List Lexeme} (h : s.Entries o xs o') :
    ∀ x ∈ xs, o ≤ x.span.start := by
  induction h with
  | nil o => simp
  | cons key path _ _ ih =>
      have := lexeme?_bounds key.here
      have := key.colon.le
      have := path.le
      rw [List.forall_mem_cons]
      exact ⟨by omega, fun x hx => by have := ih x hx; omega⟩

theorem Entries.exists_lexeme? {xs : List Lexeme} (h : s.Entries o xs o') :
    ∀ x ∈ xs, ∃ a, s.lexeme? a = some x ∧ x.kind = .identifier := by
  induction h with
  | nil o => simp
  | cons key _ _ _ ih => exact List.forall_mem_cons.2 ⟨⟨_, key.here, key.name⟩, ih⟩

/-- Keys stand in the source as they stand in the row. -/
theorem Entries.stop_le {xs : List Lexeme} {x y : Lexeme} (h : s.Entries o (xs ++ [x]) o')
    (hy : y ∈ xs) : y.span.stop ≤ x.span.start := by
  induction xs generalizing o with
  | nil => cases hy
  | cons z xs ih =>
      cases h with
      | cons key path _ tail =>
          rcases List.mem_cons.1 hy with rfl | hy
          · have := tail.le_start x (by simp)
            have := key.colon.le
            have := path.le
            omega
          · exact ih tail hy

end Source

/-- A numeral without a value is one of which a digit does not fit, or all of them. -/
theorem Numeral.cause_of_value {text : String} {cause : ParseError.Cause}
    (h : value text = .error cause) :
    cause = .integerOverflow text ∨ ∃ radix, cause = .invalidDigit text radix := by
  rw [value] at h
  simp only at h
  split at h
  · cases h
    exact .inr ⟨_, rfl⟩
  · split at h <;> cases h
    · exact .inl rfl
    · exact .inr ⟨_, rfl⟩

/-! ## What stands there -/

/-- What stands where an error points, for each cause that it may have. -/
def ParseError.Fits (goal : Goal) (s : Source) (l : Limits) (e : ParseError) : Prop :=
  match e.cause with
  | .unexpectedToken _ (some kind) =>
      ∃ o x, s.lexeme? o = some x ∧ x.kind = kind ∧ x.span = e.span
  | .unexpectedToken _ none => e.span = .point s.size
  | .unterminatedLiteral =>
      s.byte? e.span.start = some '"'.toUInt8 ∧ e.span.stop = s.size ∧
        ∀ j, ¬ s.Closing (e.span.start + 1) j
  | .unknownSymbol c => s.slice? e.span.start e.span.stop = some c.toString
  | .duplicateKey key =>
      s.slice? e.span.start e.span.stop = some key ∧
        ∃ o xs x o', s.Opens goal o ∧ s.Entries o (xs ++ [x]) o' ∧ x.text = key ∧
          x.span = e.span ∧ ∃ y ∈ xs, y.text = key ∧ y.span.stop ≤ e.span.start
  | .integerOverflow text | .invalidDigit text _ =>
      s.slice? e.span.start e.span.stop = some text ∧ Numeral.value text = .error e.cause
  | .nestingTooDeep limit => e.span.isEmpty = true ∧ limit = l.maxDepth
  | .stepLimitExceeded limit => e.span.isEmpty = true ∧ l.maxSteps = some limit

/-- An error that points at what its cause is about. -/
structure ParseError.Points (goal : Goal) (s : Source) (l : Limits) (e : ParseError) : Prop where
  spans : s.Spans e.span
  fits : e.Fits goal s l

namespace Parse

theorem points_of_open (h : s.OpenString o) :
    ParseError.Points goal s l
      { cause := .unterminatedLiteral, span := ⟨s.skipBlanks o, s.size⟩ } := by
  have hb := (TokenKind.boundary_of_answers h.answers).1
  obtain ⟨hquote, hclose, -⟩ := Literal.string_eq_error.1 h
  exact ⟨⟨hb.le_size, Nat.le_refl _, hb, s.boundary_size⟩, hquote, rfl,
    Literal.closingQuote_eq_none.1 hclose⟩

/-- A miss is explained by what stands where it got furthest. -/
theorem points_of_errorAt (goal : Goal) (s : Source) (l : Limits) (m : Miss) :
    (errorAt s m).Points goal s l := by
  rw [errorAt]
  split
  · next hpeek =>
      obtain ⟨hopen, rfl⟩ := peek_eq_error.1 hpeek
      exact points_of_open hopen
  · exact ⟨Source.spans_point s.boundary_size, rfl⟩
  · next hpeek =>
      obtain ⟨c, hc, -, rfl⟩ := peek_eq_unknown.1 hpeek
      have hslice := Source.slice?_of_char? hc
      refine ⟨Source.spans_of_slice? hslice, ?_⟩
      simp only [hc, Option.getD_some]
      exact hslice
  · next kind span hk hpeek =>
      obtain ⟨x, hx, rfl, rfl⟩ := (Source.lexeme?_eq_peek hk).2 hpeek
      exact ⟨Source.spans_of_lexeme? hx, _, x, hx, rfl, rfl⟩

theorem points_of_faulty (h : s.Faulty goal e) : e.Points goal s l := by
  cases h with
  | @numeral o x cause here kind fault =>
      have hslice := Source.slice?_of_lexeme? here
      rw [kind] at hslice
      refine ⟨Source.spans_of_lexeme? here, ?_⟩
      rcases Numeral.cause_of_value fault with rfl | ⟨radix, rfl⟩
      · exact ⟨hslice, fault⟩
      · exact ⟨hslice, fault⟩
  | @key o o' xs x y opens row earlier same =>
      obtain ⟨a, here, name⟩ := row.exists_lexeme? x (by simp)
      have hslice := Source.slice?_of_lexeme? here
      rw [name] at hslice
      exact ⟨Source.spans_of_lexeme? here, hslice, o, xs, x, o', opens, row, rfl, rfl, y, earlier,
        same, row.stop_le earlier⟩

/-- What breaks a parse off points at what it is about. -/
theorem points_of_fatal {p : Progress} (h : outcome goal cx = .error (.fatal e) p) :
    e.Points goal cx.source cx.limits := by
  by_cases hcontent : e.cause.isContent = true
  · exact points_of_faulty (faulty_of_outcome h hcontent)
  · have hP : Obstacles cx fun e => e.cause.isContent = true ∨
        e.Points goal cx.source cx.limits := by
      refine ⟨fun _ hopen => .inr (points_of_open hopen), fun {us o limit} hus hlimit => .inr ?_,
        fun {us o} hus => .inr ?_⟩
      · have hb := Source.Reached.boundary ⟨us, hus⟩
        rw [Nat.min_eq_left hb.le_size]
        exact ⟨Source.spans_point hb, by simp [Span.point, Span.isEmpty], hlimit⟩
      · have hb := Source.boundary_skipBlanks (Source.Reached.boundary ⟨us, hus⟩)
        exact ⟨Source.spans_point hb, by simp [Context.tooDeep, Span.point, Span.isEmpty], rfl⟩
    rcases run_of_outcome_error h with ⟨t, hrun, -⟩ | heq
    · exact ((goal.matcher_blamesFor (E := (·.isContent = true)) hP fun e => .inl).blame
        (.refl cx.source 0) hrun).resolve_left hcontent
    · cases heq
      exact (hP.depth (.refl cx.source 0)).resolve_left hcontent

end Parse

/-- Every error of a parse points at what it names. It points from between two characters of
the source to between two others, it is located there, and what stands there is what its
cause is about. -/
theorem points_of_parse (h : parse goal s l = .error e) :
    s.Spans e.span ∧ e.location = some (s.locate e.span.start) ∧ e.Fits goal s l := by
  have hpoints : e.Points goal s l := by
    obtain ⟨f, p, hout, rfl⟩ := parse_eq_error.1 h
    cases f with
    | fatal e =>
        obtain ⟨hspans, hfits⟩ := Parse.points_of_fatal hout
        exact ⟨hspans, hfits⟩
    | miss m =>
        obtain ⟨far, -, herror⟩ := Parse.errorOf_miss hout
        simp only at herror
        obtain ⟨hspans, hfits⟩ := Parse.points_of_errorAt goal s l far
        rw [herror]
        exact ⟨hspans, hfits⟩
  exact ⟨hpoints.spans, location_of_parse h, hpoints.fits⟩

/-- In the second line, a key that is there twice. -/
theorem points_of_parse_twice :
    ∃ e, parse .module ⟨"a:_\na:_"⟩ = .error e ∧ e.cause = .duplicateKey "a" ∧
      e.location = some (Source.locate ⟨"a:_\na:_"⟩ 4) ∧
      Source.slice? ⟨"a:_\na:_"⟩ 4 5 = some "a" := by
  have h : parse .module ⟨"a:_\na:_"⟩ = .error
      { cause := .duplicateKey "a", span := ⟨4, 5⟩, location := some ⟨2, 1⟩ } := by
    cbv
  obtain ⟨-, hlocation, hslice, -⟩ := points_of_parse h
  exact ⟨_, h, rfl, hlocation, hslice⟩

end WeLang
