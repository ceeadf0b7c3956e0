import WeLang.Proofs.Scanning

/-!
# No rule cuts a character

Rules look at bytes, and texts are cut at characters. That the two never get into each
other's way is due to what a match begins and ends with: an ASCII byte, at whatever offset
the rule is asked, be it inside a character or behind the end (`Source.Stretch`). The one rule
that goes over bytes without a look at them is that of strings. It may go on searching inside
a character, but it ends behind a quote, and no character has a quote inside.

So wherever the scanner or the parser has found a token there is a text to take, and the
empty text that stands in for a missing one is never used.
-/

namespace WeLang

variable {s : Source} {sc : Scanner} {cx : Context} {k : TokenKind} {start stop first : Nat}

/-- A stretch of a source that is not empty and cuts no character at either end. -/
structure Source.Stretch (s : Source) (start stop : Nat) : Prop where
  lt : start < stop
  le_size : stop ≤ s.size
  left : s.Boundary start
  right : s.Boundary stop

/-- The rules of the language: those of the kinds, and those that numerals and names are
made of. -/
def Rule.all : List Rule :=
  TokenKind.all.filterMap TokenKind.rule? ++ [Literal.decimalFraction, Literal.hexadecimal,
    Literal.octal, Literal.binary, Literal.digits, Literal.name]

/-- How far a rule gets: to the end of its match, or nowhere if there is none. -/
def Rule.reach (rule : Rule) (s : Source) (start : Nat) : Nat :=
  (rule s start).getD start

/-- The text of a token of a kind, if there is a text between the two ends of its span. -/
def TokenKind.text? (k : TokenKind) (s : Source) (span : Span) : Option String :=
  match k with
  | .string => Literal.contents? s span.start span.stop
  | _ => s.slice? span.start span.stop

/-! ## What rules match -/

theorem TokenKind.stretch_of_matchAt (h : k.matchAt s start = .ok (some stop)) :
    s.Stretch start stop := by
  obtain ⟨hlt, hstart, hstop⟩ := matchAt_bounds h
  exact ⟨hlt, hstop.le_size, hstart, hstop⟩

theorem TokenKind.matchAt_of_rule {rule : Rule} (hrule : k.rule? = some rule)
    (h : rule s start = some stop) : k.matchAt s start = .ok (some stop) := by
  cases k with
  | string =>
      cases hrule
      rw [Literal.closedString] at h
      rw [matchAt]
      cases hm : Literal.string s start with
      | error u => simp [hm] at h
      | ok stop? =>
          rw [hm] at h
          exact congrArg Except.ok h
  | unknown => cases hrule
  | symbol _ | keyword _ | integer | identifier =>
      cases hrule
      exact congrArg Except.ok h

namespace Literal

theorem stretch_of_digits (h : digits s start = some stop) : s.Stretch start stop := by
  obtain ⟨hlt, rfl⟩ := digits_eq_some.1 h
  have hbyte {i : Nat} (hle : start ≤ i) (hlt : i < s.skipWhile ByteClass.isNumeric start) :
      s.byteIn ByteClass.isNameByte i = true := by
    obtain ⟨b, hb, hn⟩ := Source.byteIn_iff.1 (Source.byteIn_skipWhile hle hlt)
    exact Source.byteIn_iff.2 ⟨b, hb, ByteClass.isNameByte_of_isNumeric hn⟩
  have hlast := Source.boundary_after_nameByte
    (hbyte (Nat.le_sub_one_of_lt hlt) (Nat.sub_one_lt_of_lt hlt))
  rw [Nat.sub_add_cancel (by omega)] at hlast
  exact ⟨hlt, hlast.le_size, Source.boundary_of_nameByte (hbyte (Nat.le_refl start) hlt), hlast⟩

theorem stretch_of_name (h : name s start = some stop) : s.Stretch start stop := by
  obtain ⟨hstart, hstop, hlt⟩ := boundaries_of_name h
  exact ⟨hlt, hstop.le_size, hstart, hstop⟩

theorem stretch_of_radixNumeral {mark : Char} (h : radixNumeral mark s start = some stop) :
    s.Stretch start stop := by
  rw [radixNumeral] at h
  split at h
  · next hmark =>
      have hdigits := stretch_of_digits h
      have hlt := hdigits.lt
      exact ⟨by omega, hdigits.le_size, Source.boundary_of_ascii hmark.1 (by decide),
        hdigits.right⟩
  · cases h

theorem stretch_of_decimalFraction (h : decimalFraction s start = some stop) :
    s.Stretch start stop := by
  rw [decimalFraction] at h
  obtain ⟨point, hwhole, h⟩ := Option.bind_eq_some_iff.1 h
  split at h
  · have hwhole := stretch_of_digits hwhole
    have hfraction := stretch_of_digits h
    have hlt := hwhole.lt
    have hlt' := hfraction.lt
    exact ⟨by omega, hfraction.le_size, hwhole.left, hfraction.right⟩
  · cases h

/-- What is between the quotes of a string cuts no character either. -/
theorem stretch_of_string (h : string s start = .ok (some stop)) :
    s.Stretch start stop ∧ start + 1 ≤ stop - 1 ∧ s.Boundary (start + 1) ∧
      s.Boundary (stop - 1) := by
  obtain ⟨hopen, hclose⟩ := string_eq_some.1 h
  obtain ⟨hlt, hquote⟩ := closingQuote_eq_some hclose
  have hstretch : s.Stretch start stop := TokenKind.stretch_of_matchAt (k := .string) h
  exact ⟨hstretch, by omega, Source.boundary_succ_of_ascii hopen (by decide),
    Source.boundary_of_ascii hquote (by decide)⟩

end Literal

theorem Rule.stretch_of_mem {rule : Rule} (hmem : rule ∈ all) (h : rule s start = some stop) :
    s.Stretch start stop := by
  rcases List.mem_append.1 hmem with hkind | hpart
  · obtain ⟨k, -, hk⟩ := List.mem_filterMap.1 hkind
    exact TokenKind.stretch_of_matchAt (TokenKind.matchAt_of_rule hk h)
  · simp only [List.mem_cons, List.not_mem_nil, or_false] at hpart
    rcases hpart with rfl | rfl | rfl | rfl | rfl | rfl
    · exact Literal.stretch_of_decimalFraction h
    · exact Literal.stretch_of_radixNumeral h
    · exact Literal.stretch_of_radixNumeral h
    · exact Literal.stretch_of_radixNumeral h
    · exact Literal.stretch_of_digits h
    · exact Literal.stretch_of_name h

/-! ## Texts of tokens -/

theorem TokenKind.textOf_eq (k : TokenKind) (s : Source) (span : Span) :
    k.textOf s span = (k.text? s span).getD "" := by
  cases k <;> rfl

/-- Where a token is found, its text is there. -/
theorem TokenKind.text?_of_matchAt (h : k.matchAt s start = .ok (some stop)) :
    k.text? s ⟨start, stop⟩ = some (k.textOf s ⟨start, stop⟩) := by
  have hsome : ∃ text, k.text? s ⟨start, stop⟩ = some text := by
    cases k with
    | string =>
        obtain ⟨-, hle, hopen, hclose⟩ := Literal.stretch_of_string h
        obtain ⟨text, htext⟩ := Source.exists_slice? hopen hclose hle
        exact ⟨text, (if_pos (by simp only; omega)).trans htext⟩
    | symbol _ | keyword _ | integer | identifier | unknown =>
        have hstretch := stretch_of_matchAt h
        exact Source.exists_slice? hstretch.left hstretch.right (Nat.le_of_lt hstretch.lt)
  obtain ⟨text, htext⟩ := hsome
  rw [textOf_eq, htext, Option.getD_some]

theorem Source.text?_of_lexeme? {o : Nat} {x : Lexeme} (h : s.lexeme? o = some x) :
    x.kind.text? s x.span = some x.text := by
  obtain ⟨kind, text, start, stop⟩ := x
  obtain ⟨hstart, hm, htext⟩ := lexeme?_eq_some.1 h
  simp only at hstart hm htext ⊢
  rw [htext, hstart]
  exact TokenKind.text?_of_matchAt hm

theorem Scanner.text?_of_advance {t : Token} {next : Scanner}
    (h : sc.advance s = .ok (some t) next) (hk : t.kind ≠ .unknown) :
    t.kind.text? s t.span = some t.text := by
  cases hx : s.lexeme? sc.position with
  | some x =>
      obtain ⟨u, _, hu, rfl, -⟩ := advance_of_lexeme? hx
      cases h.symm.trans hu
      exact Source.text?_of_lexeme? hx
  | none =>
      cases hspent : s.isSpent sc.position with
      | true =>
          obtain ⟨_, hend⟩ := advance_of_isSpent hspent
          cases h.symm.trans hend
      | false =>
          rcases advance_of_stuck hx hspent with ⟨e, _, herror⟩ | ⟨u, _, hu, hunknown⟩
          · cases h.symm.trans herror
          · cases h.symm.trans hu
            exact absurd hunknown hk

theorem Context.text?_of_lex {p q : Progress} {x : Lexeme} (h : cx.lex k start p = .ok x q) :
    x.kind.text? cx.source x.span = some x.text := by
  have hlexed := cx.lexed k start p
  rw [h] at hlexed
  cases hlexed with
  | found here _ => exact Source.text?_of_lexeme? here

/-- Rules never go back, and what they match, wherever they are asked, is not empty, ends
within the source and cuts no character; what is between the quotes of a string does not
either. So the text of a token that the scanner or the parser has found is there. -/
theorem matches_keep_to_characters :
    (∀ rule ∈ Rule.all, ∀ (s : Source) (start : Nat), start ≤ rule.reach s start ∧
      (rule.reach s start ≠ start → s.Stretch start (rule.reach s start)) ∧
      (rule.reach s start = start ↔ rule s start = none)) ∧
    (∀ (s : Source) (start stop : Nat), Literal.string s start = .ok (some stop) →
      s.Stretch start stop ∧ start + 1 ≤ stop - 1 ∧ s.Boundary (start + 1) ∧
        s.Boundary (stop - 1)) ∧
    (∀ (s : Source) (sc next : Scanner) (t : Token), sc.advance s = .ok (some t) next →
      t.kind ≠ .unknown → t.kind.text? s t.span = some t.text) ∧
    ∀ (cx : Context) (kind : TokenKind) (start : Nat) (p q : Progress) (x : Lexeme),
      cx.lex kind start p = .ok x q → x.kind.text? cx.source x.span = some x.text := by
  refine ⟨fun rule hmem s start => ?_, fun _ _ _ => Literal.stretch_of_string,
    fun _ _ _ _ => Scanner.text?_of_advance, fun _ _ _ _ _ _ => Context.text?_of_lex⟩
  rw [Rule.reach]
  cases hrule : rule s start with
  | none => simp
  | some stop =>
      have hstretch := Rule.stretch_of_mem hmem hrule
      have hlt := hstretch.lt
      simp only [Option.getD_some, reduceCtorEq, iff_false]
      exact ⟨by omega, fun _ => hstretch, by omega⟩

/-- A string of one long character, of which the rule skips the first byte with the
backslash before it. -/
theorem matches_keep_to_characters_escaped :
    Literal.closedString ∈ Rule.all ∧
      Rule.reach Literal.closedString ⟨"\"\\é\""⟩ 0 = 5 ∧
      Source.Stretch ⟨"\"\\é\""⟩ 0 5 ∧ Source.Boundary ⟨"\"\\é\""⟩ 4 ∧
      ¬ Source.Boundary ⟨"\"\\é\""⟩ 3 := by
  have hmem : Literal.closedString ∈ Rule.all := by simp [Rule.all, TokenKind.all, TokenKind.rule?]
  have hstring : Literal.string ⟨"\"\\é\""⟩ 0 = .ok (some 5) := by cbv
  have hstop : Rule.reach Literal.closedString ⟨"\"\\é\""⟩ 0 = 5 := by cbv
  obtain ⟨hrules, hstrings, -⟩ := matches_keep_to_characters
  have hstretch := (hrules _ hmem ⟨"\"\\é\""⟩ 0).2.1 (by rw [hstop]; decide)
  rw [hstop] at hstretch
  refine ⟨hmem, hstop, hstretch, (hstrings _ 0 5 hstring).2.2.2, ?_⟩
  rw [Source.boundary_iff_isSome]
  decide

end WeLang
