import WeLang.Lexis.NextToken
import WeLang.Proofs.Words

/-!
# One token at a time

The scanner asks the kinds one after the other and takes the first that matches,
and the parser asks for one kind and takes no other. They agree because at no
offset do two kinds have anything to say: a match or, for a string, an error.

The first byte settles nearly all of it. Marks are different bytes, and marks,
letters, digits and quotes are four classes without a byte in common. What is
left are the words, and there `Proofs/Words.lean` says that a reserved word and a
name are the same stretch of bytes under conditions that exclude each other.

So the order in which kinds are asked is immaterial (`firstMatch_perm`), and
`peek` has a description without any order in it (`peek_eq_token`,
`peek_eq_unknown`, `peek_eq_error`).
-/

namespace WeLang

variable {s : Source} {start stop : Nat}

/-! ## What a match looks like -/

namespace Literal

theorem closingQuote_of_byte? {pos : Nat} {b : UInt8} (h : s.byte? pos = some b) :
    closingQuote s pos =
      if b = '"'.toUInt8 then some (pos + 1)
      else if b = '\\'.toUInt8 then closingQuote s (pos + 2)
      else closingQuote s (pos + 1) := by
  rw [closingQuote]
  split
  · next hb => cases hb.symm.trans h
  · next b' hb =>
      obtain rfl := Option.some.inj (hb.symm.trans h)
      rfl

theorem closingQuote_eq_some {pos : Nat} (h : closingQuote s pos = some stop) :
    pos < stop ∧ s.byte? (stop - 1) = some '"'.toUInt8 := by
  fun_induction closingQuote s pos with
  | case1 pos hb => cases h
  | case2 pos hb =>
      cases h
      exact ⟨Nat.lt_succ_self pos, hb⟩
  | case3 pos _ _ ih | case4 pos _ _ _ _ ih =>
      have := ih h
      exact ⟨by omega, this.2⟩

theorem string_eq_some :
    string s start = .ok (some stop) ↔
      s.byte? start = some '"'.toUInt8 ∧ closingQuote s (start + 1) = some stop := by
  rw [string]
  split
  · next h =>
      cases closingQuote s (start + 1) <;> simp [h]
  · next h => simp [h]

theorem string_eq_error {u : Unterminated} :
    string s start = .error u ↔
      s.byte? start = some '"'.toUInt8 ∧ closingQuote s (start + 1) = none ∧ u = ⟨start⟩ := by
  rw [string]
  split
  · next h =>
      cases closingQuote s (start + 1) <;> simp [h, eq_comm]
  · next h => simp [h]

theorem string_eq_none : string s start = .ok none ↔ s.byte? start ≠ some '"'.toUInt8 := by
  rw [string]
  split
  · next h =>
      cases closingQuote s (start + 1) <;> simp [h]
  · next h => simp [h]

theorem digits_eq_some :
    digits s start = some stop ↔
      start < stop ∧ s.skipWhile ByteClass.isNumeric start = stop := by
  rw [digits, nonempty]
  split
  · next h =>
      simp only [Option.some.injEq]
      constructor
      · intro heq
        subst heq
        exact ⟨h, rfl⟩
      · exact And.right
  · next h =>
      simp only [reduceCtorEq, false_iff, not_and]
      intro hlt heq
      subst heq
      exact h hlt

theorem digits_eq_none :
    digits s start = none ↔ s.byteIn ByteClass.isNumeric start = false := by
  rw [digits, nonempty]
  cases hb : s.byteIn ByteClass.isNumeric start with
  | true =>
      have := s.le_skipWhile ByteClass.isNumeric (start + 1)
      rw [Source.skipWhile_of_byteIn hb, if_pos (by omega)]
      simp
  | false =>
      rw [Source.skipWhile_of_not_byteIn hb, if_neg (Nat.lt_irrefl start)]
      simp

/-- A match of some numeral rule: perhaps two bytes that mark the base, and then
digits to the end. -/
theorem numeral_eq_some (h : numeral s start = some stop) :
    s.byteIn ByteClass.isNumeric start = true ∧
      ∃ first, start ≤ first ∧ digits s first = some stop := by
  have hmarked {mark : Char} (h : radixNumeral mark s start = some stop) :
      s.byteIn ByteClass.isNumeric start = true ∧
        ∃ first, start ≤ first ∧ digits s first = some stop := by
    rw [radixNumeral] at h
    split at h
    · next hb => exact ⟨Source.byteIn_iff.2 ⟨_, hb.1, by decide⟩, start + 2, by omega, h⟩
    · cases h
  obtain ⟨rule, hmem, hrule⟩ := List.exists_of_findSome?_eq_some h
  simp only [List.mem_cons, List.not_mem_nil, or_false] at hmem
  rcases hmem with rfl | rfl | rfl | rfl
  · exact hmarked hrule
  · exact hmarked hrule
  · exact hmarked hrule
  · obtain ⟨hlt, hskip⟩ := digits_eq_some.1 hrule
    exact ⟨Source.byteIn_skipWhile (Nat.le_refl _) (hskip ▸ hlt), start, Nat.le_refl _, hrule⟩

end Literal

theorem byteRule_eq_some {b : UInt8} :
    byteRule b s start = some stop ↔ s.byte? start = some b ∧ stop = start + 1 := by
  rw [byteRule]
  split
  · next h => simp [h, eq_comm]
  · next h => simp [h]

theorem Symbol.byte_outside (m : Symbol) :
    ByteClass.isAlphabetic m.byte = false ∧ ByteClass.isNumeric m.byte = false ∧
      m.byte ≠ '"'.toUInt8 := by
  cases m <;> decide

namespace TokenKind

/-- The bytes with which a token of a kind can begin. -/
def opens : TokenKind → UInt8 → Bool
  | symbol m => (· == m.byte)
  | keyword _ | identifier => ByteClass.isAlphabetic
  | integer => ByteClass.isNumeric
  | string => (· == '"'.toUInt8)
  | unknown => fun _ => false

/-- A kind has something to say at an offset if the token there is of this kind
or would be if it were finished. -/
def Answers (k : TokenKind) (s : Source) (start : Nat) : Prop :=
  k.matchAt s start ≠ .ok none

theorem not_answers {k : TokenKind} : ¬ k.Answers s start ↔ k.matchAt s start = .ok none :=
  Classical.not_not

theorem answers_of_matchAt {k : TokenKind} (h : k.matchAt s start = .ok (some stop)) :
    k.Answers s start := by
  simp [Answers, h]

theorem byteIn_opens {k : TokenKind} (h : k.Answers s start) : s.byteIn k.opens start = true := by
  rw [Answers] at h
  cases k with
  | string =>
      have hb := mt Literal.string_eq_none.2 h
      exact Source.byteIn_iff.2 ⟨_, Decidable.not_not.1 hb, by decide⟩
  | unknown => exact absurd rfl h
  | symbol m =>
      obtain ⟨stop, hstop⟩ := Option.ne_none_iff_exists'.1 (mt (congrArg Except.ok) h)
      obtain ⟨hb, _⟩ := byteRule_eq_some.1 hstop
      exact Source.byteIn_iff.2 ⟨_, hb, beq_self_eq_true _⟩
  | keyword w =>
      obtain ⟨stop, hstop⟩ := Option.ne_none_iff_exists'.1 (mt (congrArg Except.ok) h)
      exact (Literal.name_eq_some.1 (Keyword.rule_eq_some.1 hstop).1).1
  | integer =>
      obtain ⟨stop, hstop⟩ := Option.ne_none_iff_exists'.1 (mt (congrArg Except.ok) h)
      exact (Literal.numeral_eq_some hstop).1
  | identifier =>
      obtain ⟨stop, hstop⟩ := Option.ne_none_iff_exists'.1 (mt (congrArg Except.ok) h)
      exact (Literal.name_eq_some.1 (nameRule_eq_some.1 hstop).1).1

/-! ## No two answers -/

theorem ascii_of_opens {k : TokenKind} {b : UInt8} (h : k.opens b = true) : b &&& 0x80 = 0 := by
  cases k with
  | symbol m =>
      obtain rfl : b = m.byte := eq_of_beq h
      cases m <;> decide
  | keyword w | identifier =>
      exact ByteClass.ascii_of_isNameByte (ByteClass.isNameByte_of_isAlphabetic h)
  | integer => exact ByteClass.ascii_of_isNameByte (ByteClass.isNameByte_of_isNumeric h)
  | string =>
      obtain rfl : b = '"'.toUInt8 := eq_of_beq h
      decide
  | unknown => cases h

theorem not_isNumeric_of_isAlphabetic :
    ∀ {b : UInt8}, ByteClass.isAlphabetic b = true → ByteClass.isNumeric b = false := by
  decide +kernel

/-- Whether tokens of a kind are stretches of name bytes that begin with a
letter. -/
def isWord : TokenKind → Bool
  | keyword _ | identifier => true
  | _ => false

/-- Kinds that can begin with the same byte are the same, or both are words. -/
theorem eq_or_isWord_of_opens {j k : TokenKind} {b : UInt8} (hj : j.opens b = true)
    (hk : k.opens b = true) : j = k ∨ j.isWord = true ∧ k.isWord = true := by
  have hletter := @not_isNumeric_of_isAlphabetic b
  have hquote : ByteClass.isAlphabetic '"'.toUInt8 = false ∧
      ByteClass.isNumeric '"'.toUInt8 = false := by decide
  cases j with
  | unknown => cases hj
  | symbol m =>
      obtain rfl : b = m.byte := eq_of_beq hj
      obtain ⟨ha, hn, hq⟩ := m.byte_outside
      cases k <;> simp_all [opens, isWord]
      exact Symbol.byte_injective hk
  | keyword _ | identifier | integer =>
      cases k <;> simp_all [opens, isWord]
      next m =>
        have := m.byte_outside
        simp_all
  | string =>
      obtain rfl : b = '"'.toUInt8 := eq_of_beq hj
      cases k <;> simp_all [opens, isWord]
      next m => exact m.byte_outside.2.2 hk.symm

/-- What kind of word a name is, by its text and by whether it is glued to a name
byte before it. -/
def ofWord (glued : Bool) (text : String) : TokenKind :=
  match Keyword.ofSpelling? text with
  | some w => if glued then identifier else keyword w
  | none => identifier

theorem eq_ofWord {k : TokenKind} (hw : k.isWord = true) (h : k.Answers s start) :
    ∃ stop text, Literal.name s start = some stop ∧ s.slice? start stop = some text ∧
      k = ofWord (s.nameByteBefore start) text := by
  cases k with
  | keyword w =>
      obtain ⟨stop, hstop⟩ := Option.ne_none_iff_exists'.1 (mt (congrArg Except.ok) h)
      obtain ⟨hname, hslice, hbefore⟩ := Keyword.rule_eq_some.1 hstop
      refine ⟨stop, w.spelling, hname, hslice, ?_⟩
      simp [ofWord, Keyword.ofSpelling?_eq_some.2 rfl, hbefore]
  | identifier =>
      obtain ⟨stop, hstop⟩ := Option.ne_none_iff_exists'.1 (mt (congrArg Except.ok) h)
      obtain ⟨hname, hglued⟩ := nameRule_eq_some.1 hstop
      obtain ⟨text, hslice⟩ := Literal.exists_slice?_of_name hname
      refine ⟨stop, text, hname, hslice, ?_⟩
      rw [ofWord]
      split
      · next w hw =>
          obtain rfl := Keyword.ofSpelling?_eq_some.1 hw
          simp [hglued w hslice]
      · rfl
  | symbol _ | integer | string | unknown => cases hw

/-- At most one kind has anything to say at an offset. -/
theorem eq_of_answers {j k : TokenKind} (hj : j.Answers s start) (hk : k.Answers s start) :
    j = k := by
  obtain ⟨b, hb, hjb⟩ := Source.byteIn_iff.1 (byteIn_opens hj)
  obtain ⟨b', hb', hkb⟩ := Source.byteIn_iff.1 (byteIn_opens hk)
  obtain rfl := Option.some.inj (hb.symm.trans hb')
  rcases eq_or_isWord_of_opens hjb hkb with heq | ⟨hjw, hkw⟩
  · exact heq
  · -- Both are the one name that starts here, and its text decides which.
    obtain ⟨stop, text, hname, hslice, rfl⟩ := eq_ofWord hjw hj
    obtain ⟨stop', text', hname', hslice', rfl⟩ := eq_ofWord hkw hk
    obtain rfl := Option.some.inj (hname.symm.trans hname')
    rw [Option.some.inj (hslice.symm.trans hslice')]

/-! ## Where a match begins and ends -/

theorem boundary_of_answers {k : TokenKind} (h : k.Answers s start) :
    s.Boundary start ∧ start < s.size := by
  obtain ⟨b, hb, hkb⟩ := Source.byteIn_iff.1 (byteIn_opens h)
  exact ⟨Source.boundary_of_ascii hb (ascii_of_opens hkb), Source.lt_size_of_byte? hb⟩

/-- A match is not empty and ends behind an ASCII byte, so it ends between two
characters. -/
theorem matchAt_bounds {k : TokenKind} (h : k.matchAt s start = .ok (some stop)) :
    start < stop ∧ s.Boundary start ∧ s.Boundary stop := by
  have hstart := (boundary_of_answers (answers_of_matchAt h)).1
  suffices start < stop ∧ ∃ b, s.byte? (stop - 1) = some b ∧ b &&& 0x80 = 0 by
    obtain ⟨hlt, b, hb, hascii⟩ := this
    have hstop := Source.boundary_succ_of_ascii hb hascii
    rw [Nat.sub_add_cancel (by omega)] at hstop
    exact ⟨hlt, hstart, hstop⟩
  have hname (h : Literal.name s start = some stop) :
      start < stop ∧ ∃ b, s.byte? (stop - 1) = some b ∧ b &&& 0x80 = 0 := by
    obtain ⟨_, hlt, hin, _⟩ := Literal.name_eq_some.1 h
    obtain ⟨b, hb, hn⟩ := Source.byteIn_iff.1 (hin (stop - 1) (by omega) (by omega))
    exact ⟨hlt, b, hb, ByteClass.ascii_of_isNameByte hn⟩
  cases k with
  | symbol m =>
      obtain ⟨hb, rfl⟩ := byteRule_eq_some.1 (Except.ok.inj h)
      exact ⟨Nat.lt_succ_self _, m.byte, hb, by cases m <;> decide⟩
  | keyword w => exact hname (Keyword.rule_eq_some.1 (Except.ok.inj h)).1
  | identifier => exact hname (nameRule_eq_some.1 (Except.ok.inj h)).1
  | integer =>
      obtain ⟨_, first, hle, hdigits⟩ := Literal.numeral_eq_some (Except.ok.inj h)
      obtain ⟨hlt, rfl⟩ := Literal.digits_eq_some.1 hdigits
      obtain ⟨b, hb, hn⟩ := Source.byteIn_iff.1
        (Source.byteIn_skipWhile (Nat.le_sub_one_of_lt hlt) (Nat.sub_one_lt_of_lt hlt))
      exact ⟨Nat.lt_of_le_of_lt hle hlt, b, hb,
        ByteClass.ascii_of_isNameByte (ByteClass.isNameByte_of_isNumeric hn)⟩
  | string =>
      obtain ⟨_, hclose⟩ := Literal.string_eq_some.1 h
      obtain ⟨hlt, hb⟩ := Literal.closingQuote_eq_some hclose
      exact ⟨by omega, _, hb, by decide⟩
  | unknown => cases h

end TokenKind

/-! ## Asking all kinds -/

/-- What a kind says at an offset, with the kind. -/
def TokenKind.answer (k : TokenKind) (s : Source) (start : Nat) :
    Except Literal.Unterminated (Option (TokenKind × Nat)) :=
  (k.matchAt s start).map fun stop? => stop?.map (k, ·)

theorem firstMatch_eq_none {ks : List TokenKind} (h : ∀ k ∈ ks, ¬ k.Answers s start) :
    firstMatch s start ks = .ok none := by
  induction ks with
  | nil => rfl
  | cons k ks ih =>
      rw [firstMatch, TokenKind.not_answers.1 (h k (by simp))]
      exact ih fun j hj => h j (List.mem_cons_of_mem k hj)

theorem firstMatch_of_answers {ks : List TokenKind} {k : TokenKind} (hk : k ∈ ks)
    (h : k.Answers s start) : firstMatch s start ks = k.answer s start := by
  induction ks with
  | nil => cases hk
  | cons j ks ih =>
      rw [firstMatch]
      by_cases hj : j.Answers s start
      · -- The first that answers is the one that answers.
        obtain rfl := TokenKind.eq_of_answers hj h
        rw [TokenKind.answer]
        cases hm : j.matchAt s start with
        | error u => rfl
        | ok stop? =>
            cases stop? with
            | none => exact absurd hm h
            | some stop => rfl
      · rw [TokenKind.not_answers.1 hj]
        rcases List.mem_cons.1 hk with rfl | hk
        · exact absurd h hj
        · exact ih hk

/-- The order in which the kinds are asked is immaterial. -/
theorem firstMatch_perm {ks ks' : List TokenKind} (h : ks.Perm ks') :
    firstMatch s start ks = firstMatch s start ks' := by
  by_cases hex : ∃ k ∈ ks, k.Answers s start
  · obtain ⟨k, hk, hans⟩ := hex
    rw [firstMatch_of_answers hk hans, firstMatch_of_answers (h.mem_iff.1 hk) hans]
  · have hno : ∀ k ∈ ks, ¬ k.Answers s start := fun k hk hans => hex ⟨k, hk, hans⟩
    rw [firstMatch_eq_none hno, firstMatch_eq_none fun k hk => hno k (h.mem_iff.2 hk)]

namespace TokenKind

theorem mem_scanOrder {k : TokenKind} : k ∈ scanOrder ↔ k ≠ .unknown := by
  cases k with
  | symbol m => simpa [scanOrder] using m.mem_scanOrder
  | keyword w => simpa [scanOrder] using w.mem_all
  | integer | identifier | string | unknown => simp [scanOrder]

theorem mem_scanOrder_of_answers {k : TokenKind} (h : k.Answers s start) : k ∈ scanOrder := by
  rw [mem_scanOrder]
  intro heq
  subst heq
  exact h rfl

/-- Only a string can be begun and not be finished. -/
theorem matchAt_eq_error {k : TokenKind} {u : Literal.Unterminated}
    (h : k.matchAt s start = .error u) : k = .string ∧ u = ⟨start⟩ := by
  cases k with
  | string => exact ⟨rfl, (Literal.string_eq_error.1 h).2.2⟩
  | symbol _ | keyword _ | integer | identifier | unknown => cases h

end TokenKind

theorem matchToken_eq_token {k : TokenKind} :
    matchToken s start = .ok (some (k, stop)) ↔ k.matchAt s start = .ok (some stop) := by
  rw [matchToken]
  by_cases hex : ∃ j : TokenKind, j.Answers s start
  · obtain ⟨j, hj⟩ := hex
    rw [firstMatch_of_answers (TokenKind.mem_scanOrder_of_answers hj) hj]
    rw [TokenKind.answer]
    constructor
    · intro h
      cases hm : j.matchAt s start with
      | error u => simp [hm, Except.map] at h
      | ok stop? =>
          cases stop? with
          | none => exact absurd hm hj
          | some stop' =>
              simp only [hm, Except.map, Option.map_some, Except.ok.injEq, Option.some.injEq,
                Prod.mk.injEq] at h
              obtain ⟨rfl, rfl⟩ := h
              exact hm
    · intro h
      obtain rfl := TokenKind.eq_of_answers hj (TokenKind.answers_of_matchAt h)
      simp [h, Except.map]
  · rw [firstMatch_eq_none fun k _ hk => hex ⟨k, hk⟩]
    simp only [Except.ok.injEq, reduceCtorEq, false_iff]
    intro h
    exact hex ⟨k, TokenKind.answers_of_matchAt h⟩

theorem matchToken_eq_none :
    matchToken s start = .ok none ↔ ∀ k : TokenKind, ¬ k.Answers s start := by
  rw [matchToken]
  constructor
  · intro h k hk
    rw [firstMatch_of_answers (TokenKind.mem_scanOrder_of_answers hk) hk] at h
    rw [TokenKind.answer] at h
    cases hm : k.matchAt s start with
    | error u => simp [hm, Except.map] at h
    | ok stop? =>
        cases stop? with
        | none => exact hk hm
        | some stop' => simp [hm, Except.map] at h
  · intro h
    rw [firstMatch_eq_none fun k _ => h k]

theorem matchToken_eq_error {e : LexError} :
    matchToken s start = .error e ↔
      TokenKind.string.matchAt s start = .error ⟨start⟩ ∧ e = .ofUnterminated s ⟨start⟩ := by
  rw [matchToken]
  constructor
  · intro h
    by_cases hex : ∃ k : TokenKind, k.Answers s start
    · obtain ⟨k, hk⟩ := hex
      rw [firstMatch_of_answers (TokenKind.mem_scanOrder_of_answers hk) hk] at h
      rw [TokenKind.answer] at h
      cases hm : k.matchAt s start with
      | error u =>
          obtain ⟨rfl, rfl⟩ := TokenKind.matchAt_eq_error hm
          rw [hm] at h
          exact ⟨hm, (Except.error.inj h).symm⟩
      | ok stop? => simp [hm, Except.map] at h
    · rw [firstMatch_eq_none fun k _ hk => hex ⟨k, hk⟩] at h
      cases h
  · intro h
    obtain ⟨h, rfl⟩ := h
    have hans : TokenKind.string.Answers s start := by simp [TokenKind.Answers, h]
    rw [firstMatch_of_answers (TokenKind.mem_scanOrder_of_answers hans) hans,
      TokenKind.answer, h]
    rfl

/-! ## Peeking -/

variable {offset : Nat} {span : Span}

theorem peek_eq_token {k : TokenKind} (hk : k ≠ .unknown) :
    peek s offset = .ok (some (k, span)) ↔
      span.start = s.skipBlanks offset ∧
        k.matchAt s (s.skipBlanks offset) = .ok (some span.stop) := by
  obtain ⟨a, b⟩ := span
  rw [peek]
  simp only []
  constructor
  · intro h
    split at h
    · cases h
    · split at h
      · cases h
      · next hm =>
          simp only [Except.ok.injEq, Option.some.injEq, Prod.mk.injEq, Span.mk.injEq] at h
          obtain ⟨rfl, rfl, rfl⟩ := h
          exact ⟨rfl, matchToken_eq_token.1 hm⟩
      · simp only [Except.ok.injEq, Option.some.injEq, Prod.mk.injEq] at h
        exact absurd h.1.symm hk
  · intro hand
    obtain ⟨rfl, hm⟩ := hand
    have hchar := Source.char?_isSome.2
      (TokenKind.boundary_of_answers (TokenKind.answers_of_matchAt hm))
    obtain ⟨c, hc⟩ := Option.isSome_iff_exists.1 hchar
    rw [hc, matchToken_eq_token.2 hm]

theorem peek_eq_unknown :
    peek s offset = .ok (some (.unknown, span)) ↔
      ∃ c, s.char? (s.skipBlanks offset) = some c ∧
        (∀ k : TokenKind, ¬ k.Answers s (s.skipBlanks offset)) ∧
        span = ⟨s.skipBlanks offset, s.skipBlanks offset + c.utf8Size⟩ := by
  unfold peek
  simp only []
  cases hc : s.char? (s.skipBlanks offset) with
  | none => simp
  | some c =>
      simp only [Option.some.injEq, exists_eq_left']
      rw [← matchToken_eq_none]
      cases hm : matchToken s (s.skipBlanks offset) with
      | error e => simp
      | ok found? =>
          cases found? with
          | none => simp [eq_comm]
          | some found =>
              obtain ⟨k, stop⟩ := found
              have hk := matchToken_eq_token.1 hm
              simp only [Except.ok.injEq, Option.some.injEq, Prod.mk.injEq, reduceCtorEq,
                false_and, iff_false, not_and]
              intro heq
              subst heq
              cases hk

theorem peek_eq_none :
    peek s offset = .ok none ↔
      ¬ (s.Boundary (s.skipBlanks offset) ∧ s.skipBlanks offset < s.size) := by
  rw [← Source.char?_isSome]
  unfold peek
  simp only []
  cases hc : s.char? (s.skipBlanks offset) with
  | none => simp
  | some c =>
      simp only [Option.isSome_some, not_true_eq_false, iff_false]
      split <;> simp

theorem peek_eq_error {e : LexError} :
    peek s offset = .error e ↔
      TokenKind.string.matchAt s (s.skipBlanks offset) = .error ⟨s.skipBlanks offset⟩ ∧
        e = .ofUnterminated s ⟨s.skipBlanks offset⟩ := by
  rw [← matchToken_eq_error]
  unfold peek
  simp only []
  cases hc : s.char? (s.skipBlanks offset) with
  | none =>
      simp only [reduceCtorEq, false_iff]
      intro h
      have hans : TokenKind.string.Answers s (s.skipBlanks offset) := by
        simp [TokenKind.Answers, (matchToken_eq_error.1 h).1]
      have := Source.char?_isSome.2 (TokenKind.boundary_of_answers hans)
      rw [hc] at this
      cases this
  | some c =>
      simp only []
      split <;> simp_all

end WeLang
