import WeLang.Proofs.Expectation
import WeLang.Proofs.Stopping

/-!
# Where a parse is broken off

A parser goes back and forth in its source, but wherever it asks for a token, all tokens
before have been read one after the other: it never leaves the path on which the scanner
walks. That was used for what is read and for what is missed. Here it is used for what
breaks a parse off (`Matcher.BlamesFor`): each matcher is started on the path, and hands
on to the next what it has read of it, so an error is always about a place on the path.

For a string that is not closed, and for a character that begins no token, this means
that the path ends there, and the scanner has nothing else to say about the source. So
the parser's errors about tokens are those of `tokenize`, in the same stretch and with
the same line and column (`tokenize_of_parse`).
-/

namespace WeLang

variable {cx : Context} {src : Source} {o : Nat} {us : List Lexeme} {P : ParseError → Prop}
  {E : ParseError.Cause → Prop}

/-! ## Errors on the path -/

/-- What may break off a parse wherever it has come on the path: a string that is not
closed, and limits that are reached. -/
structure Obstacles (cx : Context) (P : ParseError → Prop) : Prop where
  literal : ∀ {us o}, cx.source.Path 0 us o → cx.source.OpenString o →
    P { cause := .unterminatedLiteral, span := ⟨cx.source.skipBlanks o, cx.source.size⟩ }
  steps : ∀ {us o limit}, cx.source.Reaches 0 us o → limit ∈ cx.limits.maxSteps →
    P { cause := .stepLimitExceeded limit, span := .point (min o cx.source.size) }
  depth : ∀ {us o}, cx.source.Reaches 0 us o → P (cx.tooDeep o)

/-- A matcher that reads a piece of the path. -/
structure Matcher.Walks (cx : Context) (p : Matcher) : Prop where
  walk : ∀ {start s stop t}, p start s = .ok stop t → ∃ xs, cx.source.Reaches start xs stop

/-- A matcher that fails for certain errors only, if it is started on the path. -/
structure Matcher.BlamesFor (cx : Context) (P : ParseError → Prop) (p : Matcher) : Prop where
  blame : ∀ {us start s e t}, cx.source.Reaches 0 us start →
    p start s = .error (.fatal e) t → P e

theorem Matcher.Within.walks {L : List TokenKind → Prop} {p : Matcher} (h : p.Within cx L) :
    p.Walks cx := by
  refine ⟨fun {start s stop t} hrun => ?_⟩
  obtain ⟨xs, hxs, _⟩ := h.reads hrun
  exact ⟨xs, hxs⟩

theorem Source.openString_congr {o' : Nat} (h : src.skipBlanks o = src.skipBlanks o') :
    src.OpenString o ↔ src.OpenString o' := by
  rw [OpenString, OpenString, h]

namespace Matcher

variable {p q : Matcher}

theorem settle_blamesFor {edit : Edit} {s t : State} {stop : Nat} {e : ParseError}
    (he : edit.RefusedFor E) (hE : ∀ e, E e.cause → P e)
    (h : s.settle edit stop = .error (.fatal e) t) : P e := by
  rw [State.settle] at h
  split at h
  · cases h
  · next hrun =>
      cases h
      exact hE _ (he _ _ _ hrun)

theorem token_blamesFor (hP : Obstacles cx P) (hE : ∀ e, E e.cause → P e) (kind : TokenKind)
    {note : Lexeme → Edit} (hnote : ∀ x, (note x).RefusedFor E) :
    BlamesFor cx P (token cx kind note) := by
  refine ⟨fun {us start s e t} hus h => ?_⟩
  have hlex := cx.lexed kind start s.progress
  rw [token] at h
  generalize cx.lex kind start s.progress = out at h hlex
  cases hlex with
  | found here _ => exact settle_blamesFor (hnote _) hE h
  | missing _ => cases h
  | exhausted spent =>
      cases h
      exact hP.steps hus (Option.eq_some_of_filter_eq_some spent)
  | unclosed _ opened =>
      cases h
      obtain ⟨m, hpath, hm⟩ := hus
      rw [← hm]
      exact hP.literal hpath ((Source.openString_congr hm).2 opened)

theorem endOfInput_blamesFor (cx : Context) : BlamesFor cx P (endOfInput cx) := by
  refine ⟨fun {us start s e t} _ h => ?_⟩
  rw [endOfInput_eq] at h
  split at h <;> cases h

theorem never_blamesFor : BlamesFor cx P never :=
  ⟨fun _ h => nomatch h⟩

theorem andThen_blamesFor (hp : BlamesFor cx P p) (hq : BlamesFor cx P q) (hwalk : Walks cx p) :
    BlamesFor cx P (andThen p q) := by
  refine ⟨fun {us start s e t} hus h => ?_⟩
  rw [andThen] at h
  cases hrun : p start s with
  | error f u =>
      rw [hrun] at h
      cases f with
      | miss m => cases h
      | fatal e =>
          cases h
          exact hp.blame hus hrun
  | ok next u =>
      rw [hrun] at h
      obtain ⟨xs, hxs⟩ := hwalk.walk hrun
      cases hrun' : q next u with
      | ok stop v =>
          simp only [hrun'] at h
          cases h
      | error f v =>
          simp only [hrun'] at h
          cases f with
          | miss m => cases h
          | fatal e =>
              cases h
              exact hq.blame (hus.trans hxs) hrun'

theorem orElse_blamesFor (hp : BlamesFor cx P p) (hq : BlamesFor cx P q) :
    BlamesFor cx P (orElse p q) := by
  refine ⟨fun {us start s e t} hus h => ?_⟩
  rw [orElse] at h
  split at h
  · cases h
  · next hrun =>
      cases h
      exact hp.blame hus hrun
  · split at h
    · cases h
    · next hrun =>
        cases h
        exact hq.blame hus hrun
    · cases h

theorem optional_blamesFor (hp : BlamesFor cx P p) : BlamesFor cx P (optional p) := by
  refine ⟨fun {us start s e t} hus h => ?_⟩
  rw [optional] at h
  split at h
  · cases h
  · next hrun =>
      cases h
      exact hp.blame hus hrun
  · cases h

theorem ahead_blamesFor (hp : BlamesFor cx P p) : BlamesFor cx P (ahead p) := by
  refine ⟨fun {us start s e t} hus h => ?_⟩
  rw [ahead] at h
  split at h
  · cases h
  · next hrun =>
      cases h
      exact hp.blame hus hrun

/-! ## Repetitions -/

/-- A round that reads a piece of the path, and fails for certain errors only. -/
structure RoundBlamesFor (cx : Context) (P : ParseError → Prop) (round : Nat → State → Round) :
    Prop where
  again : ∀ {pos s next t}, round pos s = .again next t → ∃ xs, cx.source.Reaches pos xs next
  fail : ∀ {us pos s e t}, cx.source.Reaches 0 us pos → round pos s = .fail e t → P e

theorem rounds_blamesFor {round : Nat → State → Round} (h : RoundBlamesFor cx P round) :
    BlamesFor cx P (rounds cx.source.size round) := by
  refine ⟨fun {us start s} => ?_⟩
  refine rounds_induction (motive := fun pos _ out => ∀ {us e t}, cx.source.Reaches 0 us pos →
    out = .error (.fatal e) t → P e) ?_ ?_ ?_ ?_ start s
  · intro pos s stop s' _ us e t _ hout
    cases hout
  · intro pos s e s' hr us e' t hus hout
    cases hout
    exact h.fail hus hr
  · intro pos s next s' _ _ us e t _ hout
    cases hout
  · intro pos s next s' hr _ _ ih us e t hus hout
    obtain ⟨xs, hxs⟩ := h.again hr
    exact ih (hus.trans hxs) hout

theorem many_blamesFor (hp : BlamesFor cx P p) (hwalk : Walks cx p) :
    BlamesFor cx P (many cx p) := by
  refine rounds_blamesFor ⟨?_, ?_⟩
  · intro pos s next t h
    rw [manyRound] at h
    split at h
    · next hrun =>
        split at h
        · cases h
          exact hwalk.walk hrun
        · cases h
    · cases h
    · cases h
  · intro us pos s e t hus h
    rw [manyRound] at h
    split at h
    · split at h <;> cases h
    · cases h
    · next hrun =>
        cases h
        exact hp.blame hus hrun

theorem separatedRound_blamesFor (hP : Obstacles cx P) (hE : ∀ e, E e.cause → P e)
    (hp : BlamesFor cx P p) (hwalk : Walks cx p) (separator : TokenKind) :
    RoundBlamesFor cx P (separatedRound cx p separator) := by
  have hwalk' : Walks cx (expect cx separator) := (token_within cx separator _).walks
  have hsep : BlamesFor cx P (expect cx separator) :=
    token_blamesFor hP hE separator fun _ => .pure
  constructor
  · intro pos s next t h
    rw [separatedRound] at h
    split at h
    · cases h
    · cases h
    · next hrun =>
        obtain ⟨xs, hxs⟩ := hwalk'.walk hrun
        split at h
        · next hrun' =>
            cases h
            obtain ⟨ys, hys⟩ := hwalk.walk hrun'
            exact ⟨xs ++ ys, hxs.trans hys⟩
        · cases h
        · cases h
  · intro us pos s e t hus h
    rw [separatedRound] at h
    split at h
    · cases h
    · next hrun =>
        cases h
        exact hsep.blame hus hrun
    · next hrun =>
        obtain ⟨xs, hxs⟩ := hwalk'.walk hrun
        split at h
        · cases h
        · cases h
        · next hrun' =>
            cases h
            exact hp.blame (hus.trans hxs) hrun'

theorem separated_blamesFor (hP : Obstacles cx P) (hE : ∀ e, E e.cause → P e)
    (hp : BlamesFor cx P p) (hwalk : Walks cx p) (separator : TokenKind) :
    BlamesFor cx P (separated cx p separator) := by
  refine ⟨fun {us start s e t} hus h => ?_⟩
  rw [separated] at h
  split at h
  · next hrun =>
      obtain ⟨xs, hxs⟩ := hwalk.walk hrun
      exact (rounds_blamesFor (separatedRound_blamesFor hP hE hp hwalk separator)).blame
        (hus.trans hxs) h
  · cases h
  · next hrun =>
      cases h
      exact hp.blame hus hrun

/-! ## Nodes -/

theorem child_blamesFor (hP : Obstacles cx P) (hE : ∀ e, E e.cause → P e)
    (hp : BlamesFor cx P p) {attach : Node → Edit} (ha : ∀ n, (attach n).RefusedFor E) :
    BlamesFor cx P (child cx p attach) := by
  refine ⟨fun {us start s e t} hus h => ?_⟩
  rcases Nat.lt_or_ge s.progress.depth cx.limits.maxDepth with hroom | hfull
  · rw [child_of_room hroom] at h
    split at h
    · next f u hrun =>
        cases h
        exact hp.blame hus hrun
    · exact settle_blamesFor (ha _) hE h
  · rw [child_of_full hfull] at h
    cases h
    exact hP.depth hus

theorem andEdit_blamesFor (hE : ∀ e, E e.cause → P e) (hp : BlamesFor cx P p)
    {edit : Draft → Edit} (he : ∀ d, (edit d).RefusedFor E) :
    BlamesFor cx P (andEdit p edit) := by
  refine ⟨fun {us start s e t} hus h => ?_⟩
  rw [andEdit] at h
  split at h
  · exact settle_blamesFor (he _) hE h
  · next f u hrun =>
      cases h
      exact hp.blame hus hrun

end Matcher

/-! ## Patterns and the grammar -/

open Matcher in
/-- Every pattern fails for certain errors only, if what it refers to does. -/
theorem Pattern.run_blamesFor {ν : Type} {R : ν → List TokenKind → Prop} {env : ν → Matcher}
    (hP : Obstacles cx P) (hE : ∀ e, E e.cause → P e) (hR : ∀ n, ∃ w, R n w)
    (hwithin : ∀ n, Within cx (R n) (env n)) (henv : ∀ n, BlamesFor cx P (env n))
    {p : Pattern ν} (h : p.Honest E) (hplain : p.Plain) : BlamesFor cx P (p.run cx env) := by
  have hwalk {p : Pattern ν} (h : p.Honest E) (hplain : p.Plain) : Walks cx (p.run cx env) :=
    (run_within hR hwithin h hplain).walks
  induction p with
  | token kind note => exact token_blamesFor hP hE kind h
  | endOfInput => exact endOfInput_blamesFor cx
  | done => exact ⟨fun _ h => nomatch h⟩
  | never => exact h.elim
  | andThen p q ihp ihq =>
      exact andThen_blamesFor (ihp h.1 hplain.1) (ihq h.2 hplain.2) (hwalk h.1 hplain.1)
  | orElse p q ihp ihq =>
      rcases h.2 with hq | rfl
      · exact orElse_blamesFor (ihp h.1 hplain.1) (ihq hq hplain.2)
      · exact orElse_blamesFor (ihp h.1 hplain.1) never_blamesFor
  | optional p ih => exact optional_blamesFor (ih h hplain)
  | many p ih => exact many_blamesFor (ih h hplain) (hwalk h hplain)
  | separated item separator ih =>
      exact separated_blamesFor hP hE (ih h hplain) (hwalk h hplain) separator
  | ahead p _ =>
      obtain rfl : p = .endOfInput := hplain
      exact ahead_blamesFor (endOfInput_blamesFor cx)
  | child p attach ih => exact child_blamesFor hP hE (ih h.1 hplain) h.2
  | andEdit p edit ih => exact andEdit_blamesFor hE (ih h.1 hplain) h.2
  | ref name => exact henv name

theorem Grammar.valueWithin_blamesFor [ContentRefusals E] (hP : Obstacles cx P)
    (hE : ∀ e, E e.cause → P e) (levels : Nat) :
    Matcher.BlamesFor cx P (valueWithin cx levels) := by
  induction levels with
  | zero =>
      refine ⟨fun hus h => ?_⟩
      rw [valueWithin] at h
      cases h
      exact hP.depth hus
  | succ levels ih =>
      exact Pattern.run_blamesFor hP hE exists_isValue (fun _ => valueWithin_within cx levels)
        (fun _ => ih) (value_honest ref_honest) (value_plain ref_plain)

theorem Goal.matcher_blamesFor [ContentRefusals E] (hP : Obstacles cx P)
    (hE : ∀ e, E e.cause → P e) (goal : Goal) :
    Matcher.BlamesFor cx P (goal.matcher cx) := by
  have hwithin (n : Nonterminal) : Matcher.Within cx Language.IsValue (Grammar.meaning cx n) :=
    Grammar.valueWithin_within cx _
  have henv (n : Nonterminal) : Matcher.BlamesFor cx P (Grammar.meaning cx n) :=
    Grammar.valueWithin_blamesFor hP hE _
  cases goal with
  | module =>
      exact Pattern.run_blamesFor hP hE (R := fun _ => Language.IsValue) Grammar.exists_isValue
        hwithin henv (Grammar.module_honest Grammar.ref_honest)
        (Grammar.module_plain Grammar.ref_plain)
  | value =>
      exact Pattern.run_blamesFor hP hE (R := fun _ => Language.IsValue) Grammar.exists_isValue
        hwithin henv (Grammar.soleValue_honest Grammar.ref_honest)
        (Grammar.soleValue_plain Grammar.ref_plain)

/-! ## Errors about tokens -/

/-- What the scanner calls the cause of an error, if the error is about a token. -/
def ParseError.Cause.lexical? : ParseError.Cause → Option LexError.Cause
  | .unterminatedLiteral => some .unterminatedString
  | .unknownSymbol c => some (.unknownSymbol c)
  | .unexpectedToken .. | .duplicateKey _ | .integerOverflow _ | .invalidDigit .. |
    .nestingTooDeep _ | .stepLimitExceeded _ => none

namespace Parse

variable {goal : Goal}

/-- A parse that is broken off at a string that is not closed has come there on the
path. -/
theorem openString_of_fatal {e : ParseError} {p : Progress}
    (h : outcome goal cx = .error (.fatal e) p) (hcause : e.cause = .unterminatedLiteral) :
    ∃ us o, cx.source.Path 0 us o ∧ cx.source.OpenString o ∧
      e.span = ⟨cx.source.skipBlanks o, cx.source.size⟩ := by
  have : ContentRefusals (· ≠ .unterminatedLiteral) := by
    constructor <;> simp
  have hP : Obstacles cx fun e => e.cause = .unterminatedLiteral →
      ∃ us o, cx.source.Path 0 us o ∧ cx.source.OpenString o ∧
        e.span = ⟨cx.source.skipBlanks o, cx.source.size⟩ :=
    ⟨fun hpath hopen _ => ⟨_, _, hpath, hopen, rfl⟩, (fun _ _ h => nomatch h),
      (fun _ h => nomatch h)⟩
  rcases run_of_outcome_error h with ⟨t, hrun, -⟩ | heq
  · have hblames := goal.matcher_blamesFor (E := (· ≠ .unterminatedLiteral)) hP
      fun e hne hlit => absurd hlit hne
    exact hblames.blame (.refl cx.source 0) hrun hcause
  · cases heq
    cases hcause

theorem justified_of_miss {m : Miss} {p : Progress} (h : outcome goal cx = .error (.miss m) p) :
    p.Justified cx.source (Language.Sentence goal) := by
  obtain ⟨t, hrun, rfl⟩ := run_of_outcome_miss h
  have hjustified := (goal.matcher_within cx).justified
    (s := ⟨.blank, Progress.none.deeper⟩) (.refl cx.source 0)
    (fun w (hw : Language.Sentence goal w) => ⟨[], by simpa using hw⟩) nofun
  rw [hrun] at hjustified
  exact hjustified

/-- What is wrong with the token at a miss is what the source is stuck with. -/
theorem stuck_of_errorAt {m : Miss} {cause : LexError.Cause}
    (hm : m.offset = src.skipBlanks o) (h : (errorAt src m).cause.lexical? = some cause) :
    src.Stuck o ⟨cause, (errorAt src m).span, some (src.placeAt (errorAt src m).span.start)⟩ := by
  have hskip : src.skipBlanks m.offset = src.skipBlanks o := by
    rw [hm, src.skipBlanks_idem]
  rw [errorAt] at h ⊢
  split at h
  · next e hpeek =>
      cases h
      obtain ⟨hopen, rfl⟩ := peek_eq_error.1 hpeek
      rw [hskip] at hopen
      show src.Stuck o ⟨_, ⟨src.skipBlanks m.offset, src.size⟩,
        some (src.placeAt (src.skipBlanks m.offset))⟩
      rw [hskip]
      exact .unclosed hopen
  · cases h
  · next span hpeek =>
      obtain ⟨c, hc, hno, rfl⟩ := peek_eq_unknown.1 hpeek
      rw [hskip] at hc hno
      simp only [hskip, hc, Option.getD_some] at h ⊢
      cases h
      exact .unknown hc hno
  · cases h

end Parse

/-- An error of a parse that is about a token is at the place where the source is
stuck. -/
theorem stuck_of_parse {goal : Goal} {l : Limits} {e : ParseError} {cause : LexError.Cause}
    (h : parse goal src l = .error e) (hcause : e.cause.lexical? = some cause) :
    ∃ us o, src.Path 0 us o ∧
      src.Stuck o ⟨cause, e.span, some (src.placeAt e.span.start)⟩ := by
  obtain ⟨f, p, hout, rfl⟩ := parse_eq_error.1 h
  cases f with
  | fatal e =>
      have hfatal := Parse.isFatal_of_outcome (e := e) hout
      simp only [Parse.errorOf, ParseError.locate] at hcause
      cases hc : e.cause with
      | unterminatedLiteral =>
          obtain ⟨us, o, hpath, hopen, hspan⟩ := Parse.openString_of_fatal hout hc
          rw [hc] at hcause
          cases hcause
          refine ⟨us, o, hpath, ?_⟩
          simp only [Parse.errorOf, ParseError.locate, hspan]
          exact .unclosed hopen
      | unknownSymbol c | unexpectedToken expected found =>
          rw [hc] at hfatal
          cases hfatal
      | duplicateKey _ | integerOverflow _ | invalidDigit _ _ | nestingTooDeep _
      | stepLimitExceeded _ =>
          rw [hc] at hcause
          cases hcause
  | miss m =>
      obtain ⟨far, hfar, herror⟩ := Parse.errorOf_miss hout
      obtain ⟨us, o, hpath, hplace, _⟩ := Parse.justified_of_miss hout far hfar
      refine ⟨us, o, hpath, ?_⟩
      simp only at herror
      rw [herror] at hcause ⊢
      exact Parse.stuck_of_errorAt hplace hcause

theorem location_of_parse {goal : Goal} {l : Limits} {e : ParseError}
    (h : parse goal src l = .error e) : e.location = some (src.locate e.span.start) := by
  obtain ⟨f, p, -, rfl⟩ := parse_eq_error.1 h
  rfl

theorem Source.Stuck.boundary {e : LexError} (h : src.Stuck o e) :
    src.Boundary e.span.start := by
  cases h with
  | unclosed opened => exact (TokenKind.boundary_of_answers opened.answers).1
  | unknown here _ => exact (char?_isSome.1 (Option.isSome_iff_exists.2 ⟨_, here⟩)).1

/-- What a parser says about tokens, `tokenize` says as well. A source that is read can be
cut into tokens; and if a parse fails for a character or for a string that is not closed,
so does `tokenize`, in the same stretch of the source and with the same line and column. -/
theorem tokenize_of_parse (goal : Goal) (s : Source) (l : Limits) (hs : s.size < 2 ^ 32 - 1) :
    (∀ p, parse goal s l = .ok p → ∃ ts, tokenize s = .ok ts) ∧
    (∀ e c, parse goal s l = .error e → e.cause = .unknownSymbol c →
      tokenize s = .error ⟨.unknownSymbol c, e.span, e.location⟩) ∧
    ∀ e, parse goal s l = .error e → e.cause = .unterminatedLiteral →
      tokenize s = .error ⟨.unterminatedString, e.span, e.location⟩ := by
  have hlexical {e : ParseError} {cause : LexError.Cause} (h : parse goal s l = .error e)
      (hcause : e.cause.lexical? = some cause) :
      tokenize s = .error ⟨cause, e.span, e.location⟩ := by
    obtain ⟨us, o, hpath, hstuck⟩ := stuck_of_parse h hcause
    rw [location_of_parse h, Source.locate_eq_placeAt hstuck.boundary hs]
    exact tokenize_eq_error.2 ⟨us, o, hpath, hstuck⟩
  refine ⟨fun p h => ?_, fun e c h hc => hlexical h ?_, fun e h hc => hlexical h ?_⟩
  · obtain ⟨found, q, hout, -⟩ := parse_eq_ok.1 h
    obtain ⟨stop, t, hrun, -⟩ := Parse.run_of_outcome_ok hout
    obtain ⟨xs, hreads, _⟩ := goal.reads_of_matcher hrun
    obtain ⟨ts, hts, _⟩ := exists_tokenize_of_reads hreads
    exact ⟨ts, hts⟩
  · rw [hc]
    rfl
  · rw [hc]
    rfl

/-- In the second line of a list, a string that is not closed. -/
theorem tokenize_of_parse_unclosed :
    Source.size ⟨"[1,\n \"a]"⟩ < 2 ^ 32 - 1 ∧
      (∃ e, parse .value ⟨"[1,\n \"a]"⟩ = .error e ∧ e.cause = .unterminatedLiteral) ∧
      tokenize ⟨"[1,\n \"a]"⟩ = .error ⟨.unterminatedString, ⟨5, 8⟩, some ⟨2, 2⟩⟩ := by
  have hsize : Source.size ⟨"[1,\n \"a]"⟩ < 2 ^ 32 - 1 := by decide
  have h : parse .value ⟨"[1,\n \"a]"⟩ = .error
      { cause := .unterminatedLiteral, span := ⟨5, 8⟩, location := some ⟨2, 2⟩ } := by
    cbv
  obtain ⟨_, _, hunclosed⟩ := tokenize_of_parse .value _ .standard hsize
  exact ⟨hsize, ⟨_, h, rfl⟩, hunclosed _ h rfl⟩

end WeLang
