import Mathlib
import WeLang.Parse.Progress
import WeLang.Proofs.Exclusive

/-!
# The parser asks for the token that is there

`Source.lexeme?` is the one token that can be read at an offset, if there is one.
The scanner finds it by asking all kinds, the parser by asking for the right one,
and whoever asks for another kind misses. The exception is a string that is never
closed: it is an error for whoever asks for a string, and nothing at all for
everybody else.
-/

namespace WeLang

variable {s : Source} {cx : Context} {k : TokenKind} {offset : Nat} {p : Progress}

/-! ## The token at an offset -/

/-- The token that can be read at an offset, behind the blanks there. -/
def Source.lexeme? (s : Source) (offset : Nat) : Option Lexeme :=
  match peek s offset with
  | .ok (some (kind, span)) =>
      if kind = .unknown then none else some ⟨kind, kind.textOf s span, span⟩
  | _ => none

theorem Source.lexeme?_eq_some {x : Lexeme} :
    s.lexeme? offset = some x ↔
      x.span.start = s.skipBlanks offset ∧
        x.kind.matchAt s (s.skipBlanks offset) = .ok (some x.span.stop) ∧
        x.text = x.kind.textOf s x.span := by
  constructor
  · intro h
    rw [lexeme?] at h
    split at h
    · next kind span hpeek =>
        split at h
        · cases h
        · next hk =>
            cases h
            obtain ⟨hstart, hm⟩ := (peek_eq_token hk).1 hpeek
            exact ⟨hstart, hm, rfl⟩
    · cases h
  · obtain ⟨kind, text, span⟩ := x
    simp only
    intro hand
    obtain ⟨hstart, hm, rfl⟩ := hand
    have hk : kind ≠ .unknown := by
      intro heq
      subst heq
      cases hm
    rw [lexeme?]
    rw [(peek_eq_token hk).2 ⟨hstart, hm⟩]
    simp [hk]

theorem Source.lexeme?_of_matchToken {stop : Nat}
    (h : matchToken s (s.skipBlanks offset) = .ok (some (k, stop))) :
    s.lexeme? offset = some ⟨k, k.textOf s ⟨s.skipBlanks offset, stop⟩,
      ⟨s.skipBlanks offset, stop⟩⟩ :=
  Source.lexeme?_eq_some.2 ⟨rfl, matchToken_eq_token.1 h, rfl⟩

/-- Whether a string begins at an offset, behind the blanks there, and is never
closed. -/
def Source.OpenString (s : Source) (offset : Nat) : Prop :=
  TokenKind.string.matchAt s (s.skipBlanks offset) = .error ⟨s.skipBlanks offset⟩

theorem Source.OpenString.answers (h : s.OpenString offset) :
    TokenKind.string.Answers s (s.skipBlanks offset) := by
  rw [OpenString] at h
  simp [TokenKind.Answers, h]

theorem Source.not_answers_of_lexeme? {x : Lexeme} (h : s.lexeme? offset = some x)
    (hk : k ≠ x.kind) : ¬ k.Answers s (s.skipBlanks offset) := by
  intro hans
  exact hk (TokenKind.eq_of_answers hans
    (TokenKind.answers_of_matchAt (Source.lexeme?_eq_some.1 h).2.1))

theorem Source.not_openString_of_lexeme? {x : Lexeme} (h : s.lexeme? offset = some x) :
    ¬ s.OpenString offset := by
  intro hopen
  obtain ⟨_, hm, _⟩ := Source.lexeme?_eq_some.1 h
  rw [← TokenKind.eq_of_answers hopen.answers (TokenKind.answers_of_matchAt hm)] at hm
  cases hm.symm.trans hopen

/-! ## Asking for it -/

namespace Context

/-- Whether there are steps left for one more attempt. -/
def Affords (cx : Context) (p : Progress) : Prop :=
  cx.limits.exceeded? p.spend.steps = none

theorem affords_of_unlimited (h : cx.limits.maxSteps = none) (p : Progress) : cx.Affords p := by
  simp [Affords, Limits.exceeded?, h]

/-- The miss of a token of a kind. -/
def missOf (cx : Context) (k : TokenKind) (offset : Nat) : Miss :=
  ⟨offset, cx.source.skipBlanks offset, .single k⟩

theorem lex_of_lexeme? (hp : cx.Affords p) {x : Lexeme}
    (h : cx.source.lexeme? offset = some x) :
    cx.lex x.kind offset p = .ok x (p.spend.noteCollision cx x.kind x.span) := by
  obtain ⟨kind, text, start, stop⟩ := x
  obtain ⟨hstart, hm, htext⟩ := Source.lexeme?_eq_some.1 h
  simp only at hstart hm htext
  subst hstart htext
  rw [Affords] at hp
  simp only [lex, hp, hm]

theorem lex_of_not_answers (hp : cx.Affords p)
    (h : ¬ k.Answers cx.source (cx.source.skipBlanks offset)) :
    cx.lex k offset p = .error (.miss (cx.missOf k offset))
      (p.spend.noteMiss (cx.source.skipBlanks offset) (.single k)) := by
  rw [Affords] at hp
  simp only [lex, hp, TokenKind.not_answers.1 h, missOf]

theorem lex_of_ne (hp : cx.Affords p) {x : Lexeme} (h : cx.source.lexeme? offset = some x)
    (hk : k ≠ x.kind) :
    cx.lex k offset p = .error (.miss (cx.missOf k offset))
      (p.spend.noteMiss (cx.source.skipBlanks offset) (.single k)) :=
  lex_of_not_answers hp (Source.not_answers_of_lexeme? h hk)

theorem lex_of_openString (hp : cx.Affords p) (h : cx.source.OpenString offset) :
    cx.lex .string offset p =
      .error (.fatal { cause := .unterminatedLiteral,
                       span := ⟨cx.source.skipBlanks offset, cx.source.size⟩ }) p.spend := by
  rw [Affords] at hp
  rw [Source.OpenString] at h
  simp only [lex, hp, h]

/-- Nothing else can come of asking for a token. -/
theorem lex_cases (cx : Context) (k : TokenKind) (offset : Nat) :
    (∃ x, cx.source.lexeme? offset = some x ∧ x.kind = k) ∨
      (k = .string ∧ cx.source.OpenString offset) ∨
        ¬ k.Answers cx.source (cx.source.skipBlanks offset) := by
  cases hm : k.matchAt cx.source (cx.source.skipBlanks offset) with
  | error u =>
      obtain ⟨rfl, rfl⟩ := TokenKind.matchAt_eq_error hm
      exact .inr (.inl ⟨rfl, hm⟩)
  | ok stop? =>
      cases stop? with
      | none => exact .inr (.inr (TokenKind.not_answers.2 hm))
      | some stop =>
          let span : Span := ⟨cx.source.skipBlanks offset, stop⟩
          exact .inl ⟨⟨k, k.textOf cx.source span, span⟩,
            Source.lexeme?_eq_some.2 ⟨rfl, hm, rfl⟩, rfl⟩

/-- What comes of asking for a token, with the reason. -/
inductive Lexed (cx : Context) (k : TokenKind) (offset : Nat) (p : Progress) :
    EStateM.Result Failure Progress Lexeme → Prop
  | found {x : Lexeme} (here : cx.source.lexeme? offset = some x) (kind : x.kind = k) :
      Lexed cx k offset p (.ok x (p.spend.noteCollision cx k x.span))
  | missing (absent : ¬ k.Answers cx.source (cx.source.skipBlanks offset)) :
      Lexed cx k offset p (.error (.miss (cx.missOf k offset))
        (p.spend.noteMiss (cx.source.skipBlanks offset) (.single k)))
  | unclosed (kind : k = .string) (opened : cx.source.OpenString offset) :
      Lexed cx k offset p
        (.error (.fatal { cause := .unterminatedLiteral,
                          span := ⟨cx.source.skipBlanks offset, cx.source.size⟩ }) p.spend)
  | exhausted {limit : Nat} (spent : cx.limits.exceeded? p.spend.steps = some limit) :
      Lexed cx k offset p
        (.error (.fatal { cause := .stepLimitExceeded limit,
                          span := .point (min offset cx.source.size) }) p.spend)

theorem lexed (cx : Context) (k : TokenKind) (offset : Nat) (p : Progress) :
    Lexed cx k offset p (cx.lex k offset p) := by
  cases hp : cx.limits.exceeded? p.spend.steps with
  | some limit =>
      have : cx.lex k offset p =
          .error (.fatal { cause := .stepLimitExceeded limit,
                           span := .point (min offset cx.source.size) }) p.spend := by
        simp only [lex, hp]
      rw [this]
      exact .exhausted hp
  | none =>
      rcases cx.lex_cases k offset with ⟨x, hx, rfl⟩ | ⟨rfl, hopen⟩ | hno
      · rw [lex_of_lexeme? hp hx]
        exact .found hx rfl
      · rw [lex_of_openString hp hopen]
        exact .unclosed rfl hopen
      · rw [lex_of_not_answers hp hno]
        exact .missing hno

theorem lexeme?_of_lex_ok (hp : cx.Affords p) {x : Lexeme} {p' : Progress}
    (h : cx.lex k offset p = .ok x p') : cx.source.lexeme? offset = some x ∧ x.kind = k := by
  rcases cx.lex_cases k offset with ⟨y, hy, rfl⟩ | ⟨rfl, hopen⟩ | hno
  · rw [lex_of_lexeme? hp hy] at h
    cases h
    exact ⟨hy, rfl⟩
  · rw [lex_of_openString hp hopen] at h
    cases h
  · rw [lex_of_not_answers hp hno] at h
    cases h

theorem openString_of_lex_fatal (hp : cx.Affords p) {e : ParseError} {p' : Progress}
    (h : cx.lex k offset p = .error (.fatal e) p') :
    k = .string ∧ cx.source.OpenString offset ∧
      e = { cause := .unterminatedLiteral,
            span := ⟨cx.source.skipBlanks offset, cx.source.size⟩ } := by
  rcases cx.lex_cases k offset with ⟨y, hy, rfl⟩ | ⟨rfl, hopen⟩ | hno
  · rw [lex_of_lexeme? hp hy] at h
    cases h
  · rw [lex_of_openString hp hopen] at h
    cases h
    exact ⟨rfl, hopen, rfl⟩
  · rw [lex_of_not_answers hp hno] at h
    cases h

theorem not_answers_of_lex_miss (hp : cx.Affords p) {m : Miss} {p' : Progress}
    (h : cx.lex k offset p = .error (.miss m) p') :
    ¬ k.Answers cx.source (cx.source.skipBlanks offset) := by
  rcases cx.lex_cases k offset with ⟨y, hy, rfl⟩ | ⟨rfl, hopen⟩ | hno
  · rw [lex_of_lexeme? hp hy] at h
    cases h
  · rw [lex_of_openString hp hopen] at h
    cases h
  · exact hno

end Context

theorem Source.lexeme?_eq_peek (hk : k ≠ .unknown) {span : Span} :
    (∃ x, s.lexeme? offset = some x ∧ x.kind = k ∧ x.span = span) ↔
      peek s offset = .ok (some (k, span)) := by
  rw [peek_eq_token hk]
  constructor
  · intro h
    obtain ⟨x, hx, rfl, rfl⟩ := h
    obtain ⟨hstart, hm, _⟩ := Source.lexeme?_eq_some.1 hx
    exact ⟨hstart, hm⟩
  · intro h
    obtain ⟨hstart, hm⟩ := h
    exact ⟨⟨k, k.textOf s span, span⟩, Source.lexeme?_eq_some.2 ⟨hstart, hm, rfl⟩, rfl, rfl⟩

theorem Source.openString_iff_peek {span : Span} :
    (∃ e, peek s offset = .error e ∧ e.span = span) ↔
      s.OpenString offset ∧ span = ⟨s.skipBlanks offset, s.size⟩ := by
  rw [OpenString]
  constructor
  · intro h
    obtain ⟨e, he, rfl⟩ := h
    obtain ⟨hm, rfl⟩ := peek_eq_error.1 he
    exact ⟨hm, rfl⟩
  · intro h
    obtain ⟨hm, rfl⟩ := h
    exact ⟨_, peek_eq_error.2 ⟨hm, rfl⟩, rfl⟩

/-! ## Scanner and parser -/

namespace Context

theorem lex_ok_iff_peek (hp : cx.Affords p) (hk : k ≠ .unknown) (span : Span) :
    (∃ x p', cx.lex k offset p = .ok x p' ∧ x.span = span) ↔
      peek cx.source offset = .ok (some (k, span)) := by
  rw [← Source.lexeme?_eq_peek hk]
  constructor
  · intro h
    obtain ⟨x, p', h, hspan⟩ := h
    obtain ⟨hx, hkind⟩ := lexeme?_of_lex_ok hp h
    exact ⟨x, hx, hkind, hspan⟩
  · intro h
    obtain ⟨x, hx, rfl, hspan⟩ := h
    exact ⟨x, _, lex_of_lexeme? hp hx, hspan⟩

theorem lex_fatal_iff_peek (hp : cx.Affords p) (span : Span) :
    (∃ e p', cx.lex k offset p = .error (.fatal e) p' ∧
        e.cause = .unterminatedLiteral ∧ e.span = span) ↔
      k = .string ∧ ∃ e, peek cx.source offset = .error e ∧ e.span = span := by
  rw [Source.openString_iff_peek]
  constructor
  · intro h
    obtain ⟨e, p', h, _, rfl⟩ := h
    obtain ⟨hstring, hopen, rfl⟩ := openString_of_lex_fatal hp h
    exact ⟨hstring, hopen, rfl⟩
  · intro h
    obtain ⟨rfl, hopen, rfl⟩ := h
    exact ⟨_, _, lex_of_openString hp hopen, rfl, rfl⟩

theorem lex_miss_of_peek (hp : cx.Affords p) (hk : k ≠ .unknown)
    (hno : ∀ span, peek cx.source offset ≠ .ok (some (k, span)))
    (hopen : k = .string → ∀ e, peek cx.source offset ≠ .error e) :
    ∃ m p', cx.lex k offset p = .error (.miss m) p' := by
  rcases cx.lex_cases k offset with ⟨x, hx, hkind⟩ | ⟨hstring, hstr⟩ | hmiss
  · exact absurd ((Source.lexeme?_eq_peek hk).1 ⟨x, hx, hkind, rfl⟩) (hno x.span)
  · obtain ⟨e, he, _⟩ := Source.openString_iff_peek.2 ⟨hstr, rfl⟩
    exact absurd he (hopen hstring e)
  · exact ⟨_, _, lex_of_not_answers hp hmiss⟩

theorem kind_unique_of_lex_ok (hp : cx.Affords p) {j : TokenKind} {x y : Lexeme}
    {p' q' : Progress} (hj : cx.lex j offset p = .ok x p') (hk : cx.lex k offset p = .ok y q') :
    j = k := by
  obtain ⟨hx, rfl⟩ := lexeme?_of_lex_ok hp hj
  obtain ⟨hy, rfl⟩ := lexeme?_of_lex_ok hp hk
  rw [Option.some.inj (hx.symm.trans hy)]

theorem peek_unknown_iff_lex_miss (hp : cx.Affords p) :
    (∃ span, peek cx.source offset = .ok (some (.unknown, span))) ↔
      cx.source.Boundary (cx.source.skipBlanks offset) ∧
        cx.source.skipBlanks offset < cx.source.size ∧
        ∀ k : TokenKind, k ≠ .unknown → ∃ m p', cx.lex k offset p = .error (.miss m) p' := by
  constructor
  · intro h
    obtain ⟨span, h⟩ := h
    obtain ⟨c, hc, hno, _⟩ := peek_eq_unknown.1 h
    obtain ⟨hb, hlt⟩ := Source.char?_isSome.1 (Option.isSome_iff_exists.2 ⟨c, hc⟩)
    exact ⟨hb, hlt, fun k _ => ⟨_, _, lex_of_not_answers hp (hno k)⟩⟩
  · intro h
    obtain ⟨hb, hlt, hmiss⟩ := h
    obtain ⟨c, hc⟩ := Option.isSome_iff_exists.1 (Source.char?_isSome.2 ⟨hb, hlt⟩)
    refine ⟨_, peek_eq_unknown.2 ⟨c, hc, fun k hans => ?_, rfl⟩⟩
    have hk : k ≠ .unknown := by
      intro heq
      subst heq
      exact hans rfl
    obtain ⟨m, p', h⟩ := hmiss k hk
    exact not_answers_of_lex_miss hp h hans

end Context

/-- The scanner and the parser recognise the same token everywhere. A kind that
is asked for is found exactly where `peek` finds it, and with the same span; a
string that is never closed is an error for both; everything else is a miss. So
no two kinds are ever found in one place, the order in which the scanner asks
decides nothing, and an unknown character is one at which every kind misses. -/
theorem lex_iff_peek (hl : cx.limits.maxSteps = none) (p : Progress) (offset : Nat) :
    (∀ k : TokenKind, k ≠ .unknown →
      (∀ span, (∃ x p', cx.lex k offset p = .ok x p' ∧ x.span = span) ↔
        peek cx.source offset = .ok (some (k, span))) ∧
      (∀ span, (∃ e p', cx.lex k offset p = .error (.fatal e) p' ∧
          e.cause = .unterminatedLiteral ∧ e.span = span) ↔
        k = .string ∧ ∃ e, peek cx.source offset = .error e ∧ e.span = span) ∧
      ((∀ span, peek cx.source offset ≠ .ok (some (k, span))) →
        (k = .string → ∀ e, peek cx.source offset ≠ .error e) →
        ∃ m p', cx.lex k offset p = .error (.miss m) p')) ∧
    (∀ j k x y p' q', cx.lex j offset p = .ok x p' → cx.lex k offset p = .ok y q' → j = k) ∧
    (∀ order start, order.Perm TokenKind.scanOrder →
      firstMatch cx.source start order = firstMatch cx.source start TokenKind.scanOrder) ∧
    ((∃ span, peek cx.source offset = .ok (some (.unknown, span))) ↔
      cx.source.Boundary (cx.source.skipBlanks offset) ∧
        cx.source.skipBlanks offset < cx.source.size ∧
        ∀ k : TokenKind, k ≠ .unknown → ∃ m p', cx.lex k offset p = .error (.miss m) p') := by
  have hp := Context.affords_of_unlimited hl p
  refine ⟨fun k hk => ⟨fun span => ?_, fun span => ?_, fun hno hopen => ?_⟩, ?_,
    fun order start h => firstMatch_perm h, ?_⟩
  · exact Context.lex_ok_iff_peek hp hk span
  · exact Context.lex_fatal_iff_peek hp span
  · exact Context.lex_miss_of_peek hp hk hno hopen
  · intro j k x y p' q' hj hk
    exact Context.kind_unique_of_lex_ok hp hj hk
  · exact Context.peek_unknown_iff_lex_miss hp

/-- Behind a discard mark, a reserved word is glued and read as a name. -/
theorem lex_iff_peek_glued :
    (⟨⟨"_use"⟩, .standard⟩ : Context).limits.maxSteps = none ∧
      ∃ x p', Context.lex ⟨⟨"_use"⟩, .standard⟩ .identifier 1 .none = .ok x p' ∧
        x.span = ⟨1, 4⟩ :=
  ⟨rfl, (((lex_iff_peek rfl .none 1).1 .identifier (by decide)).1 ⟨1, 4⟩).2 (by cbv)⟩

end WeLang
