import WeLang.Proofs.Parts
import WeLang.Proofs.Stopping

/-!
# Nothing is lost in cutting

The tokens of a source are the source again. They stand in it one behind the other, what
they cover is their text, and what they do not cover is blank; and whoever asks the rule
of a token where the token starts gets the same stretch again (`Source.CutInto`).

Where a source cannot be cut to its end, its beginning can, up to the character or the
quote that is to blame. That is not said by the scanner, which has walked through the whole
source, and the rules look one byte ahead. But the beginning is a part of the source, and
what is read in the whole is read in the part (`Source.Part.path`). So the tokens of the
beginning are those that the scanner had found when it stopped (`tokenize_lossless`).
-/

namespace WeLang

variable {s : Source} {o o' : Nat} {xs : List Lexeme}

/-- A source is what its tokens cover, and blanks. -/
structure Source.CutInto (s : Source) (ts : List Token) : Prop where
  known : ∀ t ∈ ts, t.kind ≠ .unknown
  inside : ∀ t ∈ ts, t.span.start < t.span.stop ∧ t.span.stop ≤ s.size
  apart : ts.Pairwise fun t u => t.span.stop ≤ u.span.start
  blank : ∀ i < s.size, (∀ t ∈ ts, ¬ (t.span.start ≤ i ∧ i < t.span.stop)) →
    s.byteIn ByteClass.isBlank i = true
  covers : ∀ t ∈ ts, s.slice? t.span.start t.span.stop =
    some (if t.kind = .string then "\"" ++ t.text ++ "\"" else t.text)
  rescans : ∀ t ∈ ts, ∃ rule, t.kind.rule? = some rule ∧ rule s t.span.start = some t.span.stop

/-! ## Rules -/

namespace TokenKind

variable {start stop : Nat} {k : TokenKind}

theorem rule_of_matchAt (h : k.matchAt s start = .ok (some stop)) :
    ∃ rule, k.rule? = some rule ∧ rule s start = some stop := by
  cases k with
  | symbol m => exact ⟨_, rfl, Except.ok.inj h⟩
  | keyword w => exact ⟨_, rfl, Except.ok.inj h⟩
  | integer => exact ⟨_, rfl, Except.ok.inj h⟩
  | identifier => exact ⟨_, rfl, Except.ok.inj h⟩
  | unknown => cases h
  | string =>
      refine ⟨_, rfl, ?_⟩
      rw [Literal.closedString, show Literal.string s start = _ from h]

theorem rule_eq_none (h : ¬ k.Answers s start) {rule : Rule} (hrule : k.rule? = some rule) :
    rule s start = none := by
  have hm := not_answers.1 h
  cases k with
  | symbol m =>
      cases hrule
      exact Except.ok.inj hm
  | keyword w =>
      cases hrule
      exact Except.ok.inj hm
  | integer =>
      cases hrule
      exact Except.ok.inj hm
  | identifier =>
      cases hrule
      exact Except.ok.inj hm
  | unknown => cases hrule
  | string =>
      cases hrule
      rw [Literal.closedString, show Literal.string s start = _ from hm]

end TokenKind

namespace Source

theorem slice?_quote (h : s.byte? o = some '"'.toUInt8) : s.slice? o (o + 1) = some "\"" := by
  have hb := boundary_of_ascii h (by decide)
  have hb' := boundary_succ_of_ascii h (by decide)
  refine (slice?_iff_hasBytes hb hb').2 ⟨?_, rfl⟩
  have hbytes : bytesOf "\"" = ['"'.toUInt8] := by decide
  have := hb'.le_size
  rw [hbytes, hasBytes, hasBytes, h]
  simpa using this

/-- A token covers its text, and a string the quotes around it as well. -/
theorem slice?_of_lexeme? {x : Lexeme} (h : s.lexeme? o = some x) :
    s.slice? x.span.start x.span.stop =
      some (if x.kind = .string then "\"" ++ x.text ++ "\"" else x.text) := by
  obtain ⟨_, hlt, _, hb, hb'⟩ := lexeme?_bounds h
  obtain ⟨kind, text, start, stop⟩ := x
  obtain ⟨hstart, hm, htext⟩ := lexeme?_eq_some.1 h
  simp only at hstart hm htext hlt hb hb' ⊢
  rw [← hstart] at hm
  by_cases hk : kind = .string
  · subst hk
    obtain ⟨hopen, hclose⟩ := Literal.string_eq_some.1 hm
    obtain ⟨hlong, hlast⟩ := Literal.closingQuote_eq_some hclose
    have hlast' := slice?_quote hlast
    rw [Nat.sub_add_cancel (by omega)] at hlast'
    obtain ⟨inner, hinner⟩ := exists_slice? (boundary_succ_of_ascii hopen (by decide))
      (boundary_of_ascii hlast (by decide)) (show start + 1 ≤ stop - 1 by omega)
    have hinner' : text = inner := by
      rw [htext, TokenKind.textOf, Literal.contents?, if_pos (by simp only; omega), hinner]
      rfl
    rw [if_pos rfl, hinner']
    exact slice?_append (slice?_append (slice?_quote hopen) hinner) hlast'
  · obtain ⟨whole, hwhole⟩ := exists_slice? hb hb' (Nat.le_of_lt hlt)
    rw [if_neg hk, hwhole, htext]
    cases kind with
    | string => exact absurd rfl hk
    | symbol _ | keyword _ | integer | identifier | unknown =>
        simp only [TokenKind.textOf, hwhole, Option.getD_some]

/-! ## Paths -/

namespace Path

theorem exists_lexeme? (h : s.Path o xs o') : ∀ x ∈ xs, ∃ a, s.lexeme? a = some x := by
  induction h with
  | nil _ => simp
  | cons head _ ih => exact List.forall_mem_cons.2 ⟨⟨_, head⟩, ih⟩

theorem pairwise (h : s.Path o xs o') :
    xs.Pairwise fun x y => x.span.stop ≤ y.span.start := by
  induction h with
  | nil _ => exact .nil
  | cons _ tail ih =>
      refine .cons (fun y hy => ?_) ih
      exact Nat.le_trans (s.le_skipBlanks _) (tail.le_start y hy)

/-- On the way there is nothing but tokens and blanks. -/
theorem blank (h : s.Path o xs o') {i : Nat} (hle : o ≤ i) (hlt : i < s.skipBlanks o')
    (hout : ∀ x ∈ xs, ¬ (x.span.start ≤ i ∧ i < x.span.stop)) :
    s.byteIn ByteClass.isBlank i = true := by
  induction h with
  | nil _ => exact byteIn_skipWhile hle hlt
  | @cons o _ x xs head tail ih =>
      rw [List.forall_mem_cons] at hout
      obtain ⟨hstart, _⟩ := lexeme?_eq_some.1 head
      rcases Nat.lt_or_ge i x.span.start with hbefore | hbehind
      · rw [hstart] at hbefore
        exact byteIn_skipWhile hle hbefore
      · exact ih (by omega) hlt hout.2

end Path

theorem cutInto_of_reads {ts : List Token} (h : s.Reads 0 (ts.map Token.lexeme)) :
    s.CutInto ts := by
  obtain ⟨o, hpath, hspent⟩ := h
  have hlexeme (t : Token) (ht : t ∈ ts) : ∃ a, s.lexeme? a = some t.lexeme :=
    hpath.exists_lexeme? _ (List.mem_map_of_mem ht)
  refine ⟨fun t ht => ?_, fun t ht => ?_, ?_, fun i hi hout => ?_, fun t ht => ?_, fun t ht => ?_⟩
  · obtain ⟨a, ha⟩ := hlexeme t ht
    exact kind_ne_unknown ha
  · obtain ⟨a, ha⟩ := hlexeme t ht
    have := lexeme?_bounds ha
    exact ⟨this.2.1, this.2.2.1⟩
  · exact List.pairwise_map.1 hpath.pairwise
  · simp only [isSpent, decide_eq_true_eq] at hspent
    exact hpath.blank (Nat.zero_le i) (by omega) (List.forall_mem_map.2 hout)
  · obtain ⟨a, ha⟩ := hlexeme t ht
    exact slice?_of_lexeme? ha
  · obtain ⟨a, ha⟩ := hlexeme t ht
    obtain ⟨hstart, hm, _⟩ := lexeme?_eq_some.1 ha
    rw [← hstart] at hm
    exact TokenKind.rule_of_matchAt hm

/-! ## Beginnings -/

/-- What stands before an offset is a part of the source. -/
theorem part_of_slice? {before : String} (h : s.slice? 0 o = some before) :
    s.Part 0 ⟨before⟩ :=
  ⟨piece_of_slice? h, rfl⟩

theorem Part.placeAt {t : Source} (h : s.Part 0 t) (hle : o ≤ t.size) :
    t.placeAt o = s.placeAt o := by
  have hslice : t.slice? 0 o = s.slice? (0 + 0) (0 + o) := h.slice? hle
  rw [Nat.zero_add, Nat.zero_add] at hslice
  rw [Source.placeAt, Source.placeAt, hslice]

/-- The beginning of a source that is stuck can be cut into the tokens that were found. -/
theorem tokenize_before {e : LexError} {before : String} (hpath : s.Path 0 xs o)
    (he : s.Stuck o e) (h : s.slice? 0 (s.skipBlanks o) = some before) :
    tokenize ⟨before⟩ = .ok s.tokens := by
  have hpart := part_of_slice? h
  have hsize : Source.size ⟨before⟩ = s.skipBlanks o := by
    have := size_of_slice? h
    rwa [Nat.zero_add] at this
  have hle : o ≤ Source.size ⟨before⟩ := hsize ▸ s.le_skipBlanks o
  obtain ⟨ys, hys, hpath'⟩ : ∃ ys, xs = ys.map (Lexeme.shift 0) ∧ Path ⟨before⟩ 0 ys o :=
    hpart.path (by simpa using hpath) hle
  obtain rfl : xs = ys := by
    rw [hys]
    exact (List.map_congr_left fun y _ => by simp [Lexeme.shift]).trans (List.map_id' ys)
  have hspent : Source.isSpent ⟨before⟩ o = true := by
    have hskip : Source.skipBlanks ⟨before⟩ o = s.skipBlanks o :=
      hpart.skipWhile (by simp only [Nat.zero_add, skipBlanks]) (Nat.le_of_eq hsize.symm)
    rw [isSpent, hskip, hsize]
    exact decide_eq_true (Nat.le_refl _)
  have htokens : Source.tokens ⟨before⟩ = s.tokens := by
    rw [tokens_eq_of_path hpath' (lexeme?_of_isSpent hspent), tokens_eq_of_path hpath he.lexeme?]
    refine List.map_congr_left fun x hx => ?_
    have := hpath.start_lt x hx
    rw [tokenOf, tokenOf, hpart.placeAt (by omega)]
  rw [← htokens]
  exact Scanner.remaining_of_reads .initial ⟨o, hpath', hspent⟩

end Source

/-- Cutting into tokens loses nothing. If it succeeds, the tokens and the blanks between
them are the source. If it fails, they are its beginning, up to a character at which no
rule matches or to a quote that no other one closes. -/
theorem tokenize_lossless (s : Source) :
    (∀ ts, tokenize s = .ok ts → s.CutInto ts) ∧
    ∀ e, tokenize s = .error e → ∃ before, s.slice? 0 e.span.start = some before ∧
      tokenize ⟨before⟩ = .ok s.tokens ∧ Source.CutInto ⟨before⟩ s.tokens ∧
      ((∃ c, e.cause = .unknownSymbol c ∧
          s.slice? e.span.start e.span.stop = some c.toString ∧
          ∀ (k : TokenKind) (rule : Rule), k.rule? = some rule → rule s e.span.start = none) ∨
        e.cause = .unterminatedString ∧ e.span.stop = s.size ∧
          s.byte? e.span.start = some '"'.toUInt8 ∧
          Literal.closingQuote s (e.span.start + 1) = none) := by
  refine ⟨fun ts h => Source.cutInto_of_reads (tokenize_eq_ok.1 h).2, fun e h => ?_⟩
  obtain ⟨us, o, hpath, he⟩ := tokenize_eq_error.1 h
  have hplace : e.span.start = s.skipBlanks o := by
    cases he <;> rfl
  have hb := Source.boundary_skipBlanks (hpath.boundary s.boundary_zero)
  obtain ⟨before, hbefore⟩ := Source.exists_slice? s.boundary_zero hb (Nat.zero_le _)
  have hok := Source.tokenize_before hpath he hbefore
  refine ⟨before, hplace ▸ hbefore, hok, Source.cutInto_of_reads (tokenize_eq_ok.1 hok).2, ?_⟩
  cases he with
  | unknown here nothing =>
      exact .inl ⟨_, rfl, Source.slice?_of_char? here,
        fun k rule hrule => TokenKind.rule_eq_none (nothing k) hrule⟩
  | unclosed opened =>
      obtain ⟨hquote, hclose, _⟩ := Literal.string_eq_error.1 opened
      exact .inr ⟨rfl, rfl, hquote, hclose⟩

open TokenKind in
/-- A numeral and a string, and the same numeral before a character of three bytes. -/
theorem tokenize_lossless_numeral :
    Source.CutInto ⟨"7 \"€\""⟩
        [⟨integer, "7", ⟨0, 1⟩, ⟨1, 1⟩⟩, ⟨string, "€", ⟨2, 7⟩, ⟨1, 3⟩⟩] ∧
      ∃ before, Source.slice? ⟨"7 €"⟩ 0 2 = some before ∧
        tokenize ⟨before⟩ = .ok (Source.tokens ⟨"7 €"⟩) := by
  have hok : tokenize ⟨"7 \"€\""⟩ =
      .ok [⟨integer, "7", ⟨0, 1⟩, ⟨1, 1⟩⟩, ⟨string, "€", ⟨2, 7⟩, ⟨1, 3⟩⟩] := by
    cbv
  have herror : tokenize ⟨"7 €"⟩ = .error ⟨.unknownSymbol '€', ⟨2, 5⟩, some ⟨1, 3⟩⟩ := by
    cbv
  obtain ⟨before, hbefore, hcut, _⟩ := (tokenize_lossless ⟨"7 €"⟩).2 _ herror
  exact ⟨(tokenize_lossless ⟨"7 \"€\""⟩).1 _ hok, before, hbefore, hcut⟩

end WeLang
