import WeLang.Proofs.Cutting
import WeLang.Proofs.Resting
import WeLang.Proofs.Seams
import WeLang.Proofs.Twins

/-!
# Words that are glued

A reserved word is read as a name where a name byte stands before it. That byte belongs to
the token before, since blanks are no name bytes, and it is the last one of it. Names and
reserved words go on as long as name bytes follow, so they cannot be that token; neither can
a string, which ends with a quote, nor a mark other than the one for discards. What is left
is a numeral or a discard (`Source.Path.nameByteBefore_iff`), and behind these a reserved
word is always read as a name.

Hence the collisions that a scanner has noted can be told from the tokens that it has given,
by their kinds, their texts and where they stand (`collisions_eq_glued`).
-/

namespace WeLang

variable {s : Source} {sc : Scanner} {o n : Nat} {x : Lexeme} {us : List Lexeme}

/-! ## Bytes at which tokens meet -/

/-- Kinds of tokens that end with a name byte although a name byte may follow. -/
def TokenKind.Glues (k : TokenKind) : Prop :=
  k = .integer ∨ k = .symbol .discard

theorem Symbol.isNameByte_iff (m : Symbol) :
    ByteClass.isNameByte m.byte = true ↔ TokenKind.Glues (.symbol m) := by
  rw [TokenKind.Glues]
  cases m <;> decide

namespace Source

/-- What the last byte of a token is that another name byte follows, shows in its kind. -/
theorem byteIn_last (h : s.lexeme? o = some x)
    (hnext : s.byteIn ByteClass.isNameByte x.span.stop = true) :
    s.byteIn ByteClass.isNameByte (x.span.stop - 1) = true ↔ x.kind.Glues := by
  obtain ⟨kind, text, start, stop⟩ := x
  obtain ⟨-, hm, -⟩ := lexeme?_eq_some.1 h
  simp only at hm hnext ⊢
  have hname (hname : Literal.name s (s.skipBlanks o) = some stop) : False := by
    rw [(Literal.name_eq_some.1 hname).2.2.2] at hnext
    cases hnext
  cases kind with
  | symbol m =>
      obtain ⟨hb, rfl⟩ := byteRule_eq_some.1 (Except.ok.inj hm)
      rw [Nat.add_sub_cancel, ← m.isNameByte_iff, byteIn, hb]
      rfl
  | keyword w => exact (hname (Keyword.rule_eq_some.1 (Except.ok.inj hm)).1).elim
  | identifier => exact (hname (nameRule_eq_some.1 (Except.ok.inj hm)).1).elim
  | integer =>
      obtain ⟨-, first, -, hdigits⟩ := Literal.numeral_eq_some (Except.ok.inj hm)
      obtain ⟨hlt, rfl⟩ := Literal.digits_eq_some.1 hdigits
      obtain ⟨b, hb, hn⟩ := byteIn_iff.1
        (byteIn_skipWhile (Nat.le_sub_one_of_lt hlt) (Nat.sub_one_lt_of_lt hlt))
      exact iff_of_true (byteIn_iff.2 ⟨b, hb, ByteClass.isNameByte_of_isNumeric hn⟩) (.inl rfl)
  | string =>
      obtain ⟨-, hclose⟩ := Literal.string_eq_some.1 hm
      have hb := (Literal.closingQuote_eq_some hclose).2
      refine iff_of_false (fun hin => ?_) (by rw [TokenKind.Glues]; decide)
      rw [byteIn, hb] at hin
      revert hin
      decide
  | unknown => cases hm

theorem byteIn_first (h : s.lexeme? o = some x) (hword : x.kind.isWord = true) :
    s.byteIn ByteClass.isAlphabetic x.span.start = true := by
  obtain ⟨hstart, hm, -⟩ := lexeme?_eq_some.1 h
  have hopens := TokenKind.byteIn_opens (TokenKind.answers_of_matchAt hm)
  rw [hstart]
  cases hk : x.kind with
  | keyword _ | identifier =>
      rw [hk] at hopens
      exact hopens
  | symbol _ | integer | string | unknown =>
      rw [hk] at hword
      cases hword

/-- Before a word there is a name byte exactly if it begins where a numeral or a discard has
ended. -/
theorem Path.nameByteBefore_iff (h : s.Path 0 us o) (hx : s.lexeme? o = some x)
    (hword : x.kind.isWord = true) :
    s.nameByteBefore x.span.start = true ↔
      ∃ y ∈ us.getLast?, y.span.stop = x.span.start ∧ y.kind.Glues := by
  have hstart := (lexeme?_eq_some.1 hx).1
  have hfirst : s.byteIn ByteClass.isNameByte x.span.start = true := by
    obtain ⟨b, hb, halpha⟩ := byteIn_iff.1 (byteIn_first hx hword)
    exact byteIn_iff.2 ⟨b, hb, ByteClass.isNameByte_of_isAlphabetic halpha⟩
  have hlast {ys : List Lexeme} {y : Lexeme} (hpath : s.Path 0 (ys ++ [y]) o) :
      ∃ a, s.lexeme? a = some y ∧ o = y.span.stop := by
    obtain ⟨a, -, hlast⟩ := hpath.of_append
    cases hlast with
    | cons head tail =>
        cases tail
        exact ⟨a, head, rfl⟩
  rw [nameByteBefore, Bool.and_eq_true, decide_eq_true_iff]
  constructor
  · intro hbefore
    obtain ⟨hpos, hbyte⟩ := hbefore
    have hmeet : o = x.span.start := by
      refine Nat.le_antisymm (hstart ▸ s.le_skipBlanks o) (Nat.le_of_not_lt fun hlt => ?_)
      have hskipped : x.span.start - 1 < s.skipBlanks o := by omega
      obtain ⟨b, hb, hblank⟩ := byteIn_iff.1
        (byteIn_skipWhile (Nat.le_sub_one_of_lt hlt) hskipped)
      rw [byteIn, hb, Option.any_some, ByteClass.not_isNameByte_of_isBlank hblank] at hbyte
      cases hbyte
    rcases List.eq_nil_or_concat' us with rfl | ⟨ys, y, rfl⟩
    · cases h
      omega
    · obtain ⟨a, ha, rfl⟩ := hlast h
      rw [← hmeet] at hbyte hfirst
      exact ⟨y, by simp, hmeet, (byteIn_last ha hfirst).1 hbyte⟩
  · intro hex
    obtain ⟨y, hy, hmeet, hglues⟩ := hex
    obtain ⟨ys, rfl⟩ := List.getLast?_eq_some_iff.1 hy
    obtain ⟨a, ha, rfl⟩ := hlast h
    have hbounds := lexeme?_bounds ha
    rw [← hmeet] at hfirst ⊢
    exact ⟨by omega, (byteIn_last ha hfirst).2 hglues⟩

/-- What is spelled like a reserved word and is no string, is this word, or a name if a name
byte stands before it. -/
theorem kind_of_spelling {w : Keyword} (h : s.lexeme? o = some x) (hstring : x.kind ≠ .string)
    (htext : x.text = w.spelling) :
    x.kind.isWord = true ∧
      x.kind = if s.nameByteBefore x.span.start then .identifier else .keyword w := by
  have hslice := slice?_of_lexeme? h
  rw [if_neg hstring, htext] at hslice
  obtain ⟨-, -, -, hbegin, hend⟩ := lexeme?_bounds h
  obtain ⟨kind, text, start, stop⟩ := x
  obtain ⟨hstart, hm, -⟩ := lexeme?_eq_some.1 h
  simp only at hstart hm hslice hstring hbegin hend ⊢
  rw [← hstart] at hm
  have hword : kind.isWord = true := by
    obtain ⟨b, bs, hbs, halpha⟩ := w.spelling_head
    have hhas := ((slice?_iff_hasBytes hbegin hend).1 hslice).1
    rw [hbs, hasBytes, Bool.and_eq_true, beq_iff_eq] at hhas
    have hopens := TokenKind.byteIn_opens (TokenKind.answers_of_matchAt hm)
    rw [byteIn, hhas.1, Option.any_some] at hopens
    rcases TokenKind.eq_or_isWord_of_opens (j := .identifier) halpha hopens with rfl | hwords
    · rfl
    · exact hwords.2
  refine ⟨hword, ?_⟩
  cases kind with
  | keyword v =>
      obtain ⟨-, hslice', hfree⟩ := Keyword.rule_eq_some.1 (Except.ok.inj hm)
      rw [hfree, Keyword.spelling_injective (Option.some.inj (hslice'.symm.trans hslice))]
      rfl
  | identifier =>
      rw [(nameRule_eq_some.1 (Except.ok.inj hm)).2 w hslice]
      rfl
  | symbol _ | integer | string | unknown => cases hword

end Source

/-! ## Tokens that a scanner has given -/

/-- The tokens that a scanner gives when it is asked for the next one: one or none. -/
def Scanner.gives (sc : Scanner) (s : Source) : List Token :=
  match sc.advance s with
  | .ok found? _ => found?.toList
  | .error _ _ => []

/-- The tokens that the scanner of a source gives in so many steps from the beginning. An
unknown character is among them as often as the scanner is asked for it. -/
def Scanner.given (s : Source) : Nat → List Token
  | 0 => []
  | n + 1 => given s n ++ (s.scanned n).gives s

/-- What a scanner has given are the tokens that it is behind, and then perhaps again and
again the character from which it does not go on. -/
structure Scanner.Given (s : Source) (n : Nat) (us rest : List Lexeme) : Prop where
  behind : (s.scanned n).Behind s us
  given : (given s n).map Token.lexeme = us ++ rest
  unknown : ∀ x ∈ rest, x.kind = .unknown ∧ ∃ c : Char, x.text = c.toString
  rests : rest ≠ [] → (s.scanned n).Rests s

namespace Scanner

theorem gives_of_ok {found? : Option Token} {next : Scanner}
    (h : sc.advance s = .ok found? next) : sc.gives s = found?.toList := by
  rw [gives, h]

/-- A scanner that rests gives nothing, or the character at which it is. -/
theorem Rests.gives (hsc : sc.Placed s) (h : sc.Rests s) :
    ∀ t ∈ sc.gives s, t.kind = .unknown ∧ ∃ c : Char, t.text = c.toString := by
  rw [Scanner.gives]
  cases hp : peek s sc.position with
  | error e =>
      rw [advance_of_error hp]
      simp
  | ok found? =>
      cases found? with
      | none =>
          rw [(advance_of_end hsc hp).2]
          simp
      | some seen =>
          obtain ⟨k, span⟩ := seen
          obtain rfl := h k span hp
          obtain ⟨c, hc, -, rfl⟩ := peek_eq_unknown.1 hp
          rw [advance_of_unknown hp]
          simp only [Option.toList_some, List.mem_singleton, forall_eq]
          refine ⟨rfl, c, ?_⟩
          simp only [found, TokenKind.textOf, Source.slice?_of_char? hc, Option.getD_some]

theorem Given.next {rest : List Lexeme} (h : Given s n us rest) :
    ∃ us rest, Given s (n + 1) us rest := by
  have hplaced := (s.oriented_scanned n).placed
  have hgiven {ts : List Token} (hts : (s.scanned n).gives s = ts) :
      (Scanner.given s (n + 1)).map Token.lexeme = us ++ rest ++ ts.map Token.lexeme := by
    rw [Scanner.given, List.map_append, h.given, hts]
  cases hx : s.lexeme? (s.scanned n).position with
  | some x =>
      have hrest : rest = [] := by
        refine Classical.not_not.1 fun hne => ?_
        cases (rests_iff.1 (h.rests hne)).symm.trans hx
      obtain ⟨t, hadv, rfl, hnext⟩ := h.behind.advance hx
      refine ⟨us ++ [t.lexeme], [], hnext, ?_, by simp, fun hne => absurd rfl hne⟩
      rw [hgiven (gives_of_ok hadv), hrest]
      simp
  | none =>
      have hrests := rests_iff.2 hx
      refine ⟨us, rest ++ ((s.scanned n).gives s).map Token.lexeme, h.behind.stay hx, ?_, ?_,
        fun _ => (hrests.advance_next hplaced).1⟩
      · rw [hgiven rfl, List.append_assoc]
      · rw [List.forall_mem_append, List.forall_mem_map]
        exact ⟨h.unknown, hrests.gives hplaced⟩

theorem exists_given (s : Source) (n : Nat) : ∃ us rest, Given s n us rest := by
  induction n with
  | zero => exact ⟨[], [], ⟨.refl s 0, rfl⟩, rfl, by simp, fun hne => absurd rfl hne⟩
  | succ n ih =>
      obtain ⟨us, rest, h⟩ := ih
      exact h.next

/-- A token that was given is on the path behind those that were given before, unless it is
an unknown character. -/
theorem path_of_given {before after : List Token} {t : Token}
    (h : given s n = before ++ t :: after) :
    (∃ o, s.Path 0 (before.map Token.lexeme) o ∧ s.lexeme? o = some t.lexeme) ∨
      t.kind = .unknown ∧ ∃ c : Char, t.text = c.toString := by
  obtain ⟨us, rest, hgiven⟩ := exists_given s n
  have hsplit := hgiven.given
  rw [h, List.map_append, List.map_cons, List.append_eq_append_iff] at hsplit
  rcases hsplit with ⟨as, rfl, has⟩ | ⟨bs, -, rfl⟩
  · cases as with
    | nil =>
        refine .inr (hgiven.unknown t.lexeme ?_)
        rw [← List.nil_append rest, ← has]
        exact List.mem_cons_self
    | cons x as =>
        obtain ⟨rfl, -⟩ := List.cons.inj has
        obtain ⟨m, hpath, -⟩ := hgiven.behind.reaches
        obtain ⟨o, hbefore, hlast⟩ := hpath.of_append
        cases hlast with
        | cons head _ => exact .inl ⟨o, hbefore, head⟩
  · exact .inr (hgiven.unknown t.lexeme (by simp))

end Scanner

/-! ## Collisions -/

/-- The reserved word that a token collides with, by its kind and its text. -/
def Lexeme.collision? (x : Lexeme) : Option KeywordCollision :=
  if x.kind = .identifier then (Keyword.ofSpelling? x.text).map (⟨x.span, ·⟩) else none

theorem Keyword.spelling_ne_char (w : Keyword) (c : Char) : w.spelling ≠ c.toString := by
  intro h
  have hlength : c.toString.length = 1 := by simp [Char.toString]
  rw [← h] at hlength
  revert hlength
  cases w <;> decide

theorem Source.Path.filterMap_collision? (h : s.Path 0 us o) :
    us.filterMap Lexeme.collision? = s.collisionsOf us := by
  refine List.filterMap_congr fun x hx => ?_
  obtain ⟨a, ha⟩ := h.exists_lexeme? x hx
  exact (KeywordCollision.ofToken?_of_lexeme? ha).symm

/-- A token is glued to the one before it if that is a numeral or a discard, and nothing is
between them. -/
def Token.GluedTo (t last : Token) : Prop :=
  last.span.stop = t.span.start ∧ last.kind.Glues

/-- After any number of steps a scanner has noted those of its tokens that are names spelled
like reserved words, in their order and each of them once. These are the ones that are glued
to a numeral or a discard. What else is spelled like a reserved word and is no string, is this
reserved word. -/
theorem collisions_eq_glued (s : Source) (n : Nat) :
    (s.scanned n).collisions.toList =
        (Scanner.given s n).filterMap (fun t => t.lexeme.collision?) ∧
      ((s.scanned n).collisions.toList.map (·.span)).Nodup ∧
      ∀ before t after (w : Keyword), Scanner.given s n = before ++ t :: after →
        t.kind ≠ .string → t.text = w.spelling →
        (t.kind = .identifier ↔ ∃ last ∈ before.getLast?, t.GluedTo last) ∧
          (t.kind ≠ .identifier → t.kind = .keyword w) := by
  obtain ⟨us, rest, hgiven⟩ := Scanner.exists_given s n
  obtain ⟨m, hpath, -⟩ := hgiven.behind.reaches
  refine ⟨?_, ?_, fun before t after w h hstring htext => ?_⟩
  · have hunknown : rest.filterMap Lexeme.collision? = [] := by
      rw [List.filterMap_eq_nil_iff]
      intro x hx
      rw [Lexeme.collision?, (hgiven.unknown x hx).1]
      rfl
    calc (s.scanned n).collisions.toList
        = (us ++ rest).filterMap Lexeme.collision? := by
          rw [hgiven.behind.collisions, List.filterMap_append, hpath.filterMap_collision?,
            hunknown, List.append_nil]
      _ = (Scanner.given s n).filterMap (fun t => t.lexeme.collision?) := by
          rw [← hgiven.given, List.filterMap_map]
          rfl
  · rw [hgiven.behind.collisions]
    exact hpath.nodup_collisionsOf
  · rcases Scanner.path_of_given h with ⟨o, hbefore, ht⟩ | ⟨-, c, hc⟩
    · obtain ⟨hword, hkind⟩ := Source.kind_of_spelling ht hstring htext
      have hglued : s.nameByteBefore t.span.start = true ↔
          ∃ last ∈ before.getLast?, t.GluedTo last := by
        refine (hbefore.nameByteBefore_iff ht hword).trans ?_
        rw [List.getLast?_map]
        simp [Token.GluedTo, Token.lexeme]
      have hkind : t.kind = if s.nameByteBefore t.span.start then .identifier else .keyword w :=
        hkind
      rw [← hglued]
      cases hb : s.nameByteBefore t.span.start with
      | true =>
          rw [hb, if_pos rfl] at hkind
          exact ⟨iff_of_true hkind rfl, fun hne => absurd hkind hne⟩
      | false =>
          rw [hb, if_neg Bool.false_ne_true] at hkind
          refine ⟨iff_of_false (fun hname => ?_) Bool.false_ne_true, fun _ => hkind⟩
          cases hkind.symm.trans hname
    · exact absurd (htext.symm.trans hc) (w.spelling_ne_char c)

open TokenKind in
/-- A reserved word behind a numeral is noted as a collision, and another one behind a blank
is not. -/
theorem collisions_eq_glued_numeral :
    Scanner.given ⟨"7use fn"⟩ 3 =
        [⟨integer, "7", ⟨0, 1⟩, ⟨1, 1⟩⟩, ⟨identifier, "use", ⟨1, 4⟩, ⟨1, 2⟩⟩] ++
          ⟨keyword .fnWord, "fn", ⟨5, 7⟩, ⟨1, 6⟩⟩ :: [] ∧
      (Source.scanned ⟨"7use fn"⟩ 3).collisions.toList = [⟨⟨1, 4⟩, .useWord⟩] ∧
      ¬ Token.GluedTo ⟨keyword .fnWord, "fn", ⟨5, 7⟩, ⟨1, 6⟩⟩
        ⟨identifier, "use", ⟨1, 4⟩, ⟨1, 2⟩⟩ := by
  have hgiven : Scanner.given ⟨"7use fn"⟩ 3 =
      [⟨integer, "7", ⟨0, 1⟩, ⟨1, 1⟩⟩, ⟨identifier, "use", ⟨1, 4⟩, ⟨1, 2⟩⟩] ++
        ⟨keyword .fnWord, "fn", ⟨5, 7⟩, ⟨1, 6⟩⟩ :: [] := by cbv
  obtain ⟨hcollisions, -, hwords⟩ := collisions_eq_glued ⟨"7use fn"⟩ 3
  have hglued := (hwords _ _ _ .fnWord hgiven (by decide) rfl).1
  refine ⟨hgiven, ?_, fun h => ?_⟩
  · rw [hcollisions, hgiven]
    decide
  · exact absurd (hglued.2 ⟨_, rfl, h⟩) (by decide)

end WeLang
