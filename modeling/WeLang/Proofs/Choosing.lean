import WeLang.Proofs.Excerpts
import WeLang.Proofs.Statements

/-!
# The alternative that every run takes

What is tried in vain leaves nothing behind: whoever tries it goes back to where the draft
was, and only the progress of the parse is not the same as before, which does not matter to
what comes next. So of a choice every run takes the same alternative, and it does not matter
how many others it has tried before (`Matcher.goes_value`). It is the one that the first token
belongs to, since no two alternatives begin with the same kind; and if no alternative begins
with what comes, there is no value (`Matcher.lacks_value`).

A value that every run comes to the end of is what a source is parsed as
(`Parse.ok_of_goes`), and an error that breaks every run off is what the parse comes to
(`Parse.error_of_fails`).
-/

namespace WeLang

variable {cx : Context} {o m k o' δ : Nat} {d d₁ d' : Draft} {e : ParseError}

namespace Matcher

variable {p q item : Matcher} {separator : TokenKind}

/-! ## What is tried -/

/-- Every run at a depth misses, and what it has done to the draft can be undone. -/
def Misses (δ : Nat) (p : Matcher) (o : Nat) (d : Draft) : Prop :=
  ∀ r : Progress, r.depth = δ → ∃ m d' r', r'.depth = δ ∧ d.Extends d' ∧
    p o ⟨d, r⟩ = .error (.miss m) ⟨d', r'⟩

theorem Lacks.misses (h : Lacks δ p o d) : Misses δ p o d := by
  intro r hr
  obtain ⟨m, r', hr', hrun⟩ := h r hr
  exact ⟨m, d, r', hr', .refl d, hrun⟩

theorem Goes.andThen_misses (hp : Goes δ p o d m d₁) (hext : d.Extends d₁)
    (hq : Misses δ q m d₁) : Misses δ (andThen p q) o d := by
  intro r hr
  obtain ⟨r₁, hr₁, hfirst⟩ := hp r hr
  obtain ⟨n, d', r', hr', hext', hsecond⟩ := hq r₁ hr₁
  exact ⟨n.rebase o, d', r', hr', hext.trans hext', by
    simp only [andThen, hfirst, hsecond, Failure.rebase_miss]⟩

theorem Goes.andThen_lacks (hp : Goes δ p o d m d) (hq : Lacks δ q m d) :
    Lacks δ (andThen p q) o d := by
  intro r hr
  obtain ⟨r₁, hr₁, hfirst⟩ := hp r hr
  obtain ⟨n, r', hr', hsecond⟩ := hq r₁ hr₁
  exact ⟨n.rebase o, r', hr', by simp only [andThen, hfirst, hsecond, Failure.rebase_miss]⟩

theorem lacks_andEdit {edit : Draft → Edit} (h : Lacks δ p o d) : Lacks δ (andEdit p edit) o d := by
  intro r hr
  obtain ⟨m, r', hr', hrun⟩ := h r hr
  exact ⟨m, r', hr', by simp only [andEdit, hrun]⟩

theorem lacks_child {attach : Node → Edit} (hroom : δ < cx.limits.maxDepth)
    (h : Lacks (δ + 1) p o .blank) : Lacks δ (child cx p attach) o d := by
  intro r hr
  obtain ⟨m, r', hr', hrun⟩ := h r.deeper (congrArg (· + 1) hr)
  refine ⟨m, r'.leave, by rw [Progress.leave, hr']; rfl, ?_⟩
  rw [child_of_room (show r.depth < _ by omega), hrun]

theorem goes_optional (h : Goes δ p o d o' d') : Goes δ (optional p) o d o' d' := by
  intro r hr
  obtain ⟨r', hr', hrun⟩ := h r hr
  exact ⟨r', hr', by simp only [optional, hrun]⟩

theorem goes_optional_of_misses (h : Misses δ p o d) : Goes δ (optional p) o d o d := by
  intro r hr
  obtain ⟨m, d', r', hr', hext, hrun⟩ := h r hr
  refine ⟨r', hr', ?_⟩
  simp only [optional, hrun, State.restore, hext.restore_mark]

/-! ## Choices -/

theorem goes_orElse (h : Goes δ p o d o' d') : Goes δ (orElse p q) o d o' d' := by
  intro r hr
  obtain ⟨r', hr', hrun⟩ := h r hr
  exact ⟨r', hr', by simp only [orElse, hrun]⟩

theorem fails_orElse (h : Fails δ p o d e) : Fails δ (orElse p q) o d e := by
  intro r hr
  obtain ⟨t, hrun⟩ := h r hr
  exact ⟨t, by simp only [orElse, hrun]⟩

theorem Lacks.orElse_goes (hp : Lacks δ p o d) (hq : Goes δ q o d o' d') :
    Goes δ (orElse p q) o d o' d' := by
  intro r hr
  obtain ⟨m, r₁, hr₁, hfirst⟩ := hp r hr
  obtain ⟨r', hr', hsecond⟩ := hq r₁ hr₁
  refine ⟨r', hr', ?_⟩
  simp only [orElse, hfirst, State.restore, Draft.restore_mark, hsecond]

theorem Lacks.orElse_fails (hp : Lacks δ p o d) (hq : Fails δ q o d e) :
    Fails δ (orElse p q) o d e := by
  intro r hr
  obtain ⟨m, r₁, hr₁, hfirst⟩ := hp r hr
  obtain ⟨t, hsecond⟩ := hq r₁ hr₁
  refine ⟨t, ?_⟩
  simp only [orElse, hfirst, State.restore, Draft.restore_mark, hsecond]

theorem Lacks.orElse_lacks (hp : Lacks δ p o d) (hq : Lacks δ q o d) :
    Lacks δ (orElse p q) o d := by
  intro r hr
  obtain ⟨m, r₁, hr₁, hfirst⟩ := hp r hr
  obtain ⟨n, r', hr', hsecond⟩ := hq r₁ hr₁
  refine ⟨((Miss.nothing o).merge m).merge n, r', hr', ?_⟩
  simp only [orElse, hfirst, State.restore, Draft.restore_mark, hsecond]

theorem lacks_never : Lacks δ never o d :=
  fun r hr => ⟨.nothing o, r, hr, rfl⟩

variable {ν : Type} {env : ν → Matcher}

/-- The first of some patterns that is there is the one that counts. `R` is what is known of
it, and then of the choice. -/
theorem firstOf_of_lacks {R : Matcher → Prop} (hleft : ∀ p q, R p → R (orElse p q))
    (hright : ∀ p q, Lacks δ p o d → R q → R (orElse p q)) {ps qs : List (Pattern ν)}
    {p : Pattern ν} (hps : ∀ q ∈ ps, Lacks δ (q.run cx env) o d) (hp : R (p.run cx env)) :
    R ((Pattern.firstOf (ps ++ p :: qs)).run cx env) := by
  induction ps with
  | nil => exact hleft _ _ hp
  | cons q ps ih =>
      rw [List.forall_mem_cons] at hps
      exact hright _ _ hps.1 (ih hps.2)

theorem lacks_firstOf {ps : List (Pattern ν)} (hps : ∀ q ∈ ps, Lacks δ (q.run cx env) o d) :
    Lacks δ ((Pattern.firstOf ps).run cx env) o d := by
  induction ps with
  | nil => exact lacks_never
  | cons q ps ih =>
      rw [List.forall_mem_cons] at hps
      exact hps.1.orElse_lacks (ih hps.2)

/-! ## Items with separators -/

/-- The rounds of a row of items, in each of which there is a separator first. -/
abbrev further (cx : Context) (item : Matcher) (separator : TokenKind) : Matcher :=
  rounds cx.source.size (separatedRound cx item separator)

theorem goes_separated (hitem : Goes δ item o d m d₁)
    (hrest : Goes δ (further cx item separator) m d₁ o' d') :
    Goes δ (separated cx item separator) o d o' d' := by
  intro r hr
  obtain ⟨r₁, hr₁, hfirst⟩ := hitem r hr
  obtain ⟨r', hr', hrun⟩ := hrest r₁ hr₁
  exact ⟨r', hr', by simp only [separated, hfirst, hrun]⟩

theorem goes_separated_of_lacks (h : Lacks δ item o d) :
    Goes δ (separated cx item separator) o d o d := by
  intro r hr
  obtain ⟨m, r', hr', hrun⟩ := h r hr
  refine ⟨r', hr', ?_⟩
  simp only [separated, hrun, State.restore, Draft.restore_mark]

theorem goes_further_of_lacks (h : Lacks δ (expect cx separator) o d) :
    Goes δ (further cx item separator) o d o d := by
  intro r hr
  obtain ⟨m, r', hr', hrun⟩ := h r hr
  refine ⟨r', hr', ?_⟩
  have hround : separatedRound cx item separator o ⟨d, r⟩ = .stop o ⟨d, r'⟩ := by
    simp only [separatedRound, hrun]
  rw [further, rounds, hround]

/-- A separator behind which there is no item is the last thing that is read. -/
theorem goes_further_trailing (hsteps : cx.limits.maxSteps = none)
    (hseparator : cx.source.Token separator o m) (hitem : Lacks δ item m d) :
    Goes δ (further cx item separator) o d m d := by
  intro r hr
  obtain ⟨r₁, hr₁, hfirst⟩ := goes_expect hsteps hseparator (d := d) r hr
  obtain ⟨n, r', hr', hsecond⟩ := hitem r₁ hr₁
  refine ⟨r', hr', ?_⟩
  have hround : separatedRound cx item separator o ⟨d, r⟩ = .stop m ⟨d, r'⟩ := by
    simp only [separatedRound, hfirst, hsecond, State.restore, Draft.restore_mark]
  rw [further, rounds, hround]

theorem goes_further (hsteps : cx.limits.maxSteps = none)
    (hseparator : cx.source.Token separator o m) (hitem : Goes δ item m d k d₁) (hle : m ≤ k)
    (hrest : Goes δ (further cx item separator) k d₁ o' d') :
    Goes δ (further cx item separator) o d o' d' := by
  intro r hr
  obtain ⟨r₁, hr₁, hfirst⟩ := goes_expect hsteps hseparator (d := d) r hr
  obtain ⟨r₂, hr₂, hsecond⟩ := hitem r₁ hr₁
  obtain ⟨r', hr', hrun⟩ := hrest r₂ hr₂
  refine ⟨r', hr', ?_⟩
  have hround : separatedRound cx item separator o ⟨d, r⟩ = .again k ⟨d₁, r₂⟩ := by
    simp only [separatedRound, hfirst, hsecond]
  have hlt : o < m := Nat.lt_of_le_of_lt (cx.source.le_skipBlanks o) hseparator.lt
  have hsize : o < cx.source.size := (expect_lawful cx separator).lt_size hfirst hlt
  rw [further, rounds, hround]
  simp only
  rw [if_pos ⟨Nat.lt_of_lt_of_le hlt hle, hsize⟩]
  exact hrun

/-! ## Values -/

open TokenKind Grammar

/-- What begins with a token of another kind is not there. -/
theorem lacks_sequence {kind : TokenKind} {note : Lexeme → Edit} {ps : List (Pattern ν)}
    (hsteps : cx.limits.maxSteps = none)
    (h : ¬ kind.Answers cx.source (cx.source.skipBlanks o)) :
    Lacks δ ((Pattern.sequence (.token kind note :: ps)).run cx env) o d :=
  lacks_andThen (lacks_token hsteps h)

variable {inner : Pattern ν}

theorem lacks_function (hsteps : cx.limits.maxSteps = none)
    (h : ¬ (keyword .fnWord).Answers cx.source (cx.source.skipBlanks o))
    (h' : ¬ (symbol .functionStart).Answers cx.source (cx.source.skipBlanks o)) :
    Lacks δ ((function inner).run cx env) o d := by
  have hword : Goes δ ((Pattern.optional (.word .fnWord) : Pattern ν).run cx env) o d o d :=
    goes_optional_of_misses (lacks_token hsteps h).misses
  exact lacks_andEdit (hword.andThen_lacks (lacks_sequence hsteps h'))

theorem lacks_wrapped {mark : Symbol} {w : Keyword} (hsteps : cx.limits.maxSteps = none)
    (h : ¬ (symbol mark).Answers cx.source (cx.source.skipBlanks o))
    (h' : ¬ (keyword w).Answers cx.source (cx.source.skipBlanks o)) :
    Lacks δ ((wrapped inner mark w).run cx env) o d := by
  have hmark : Lacks δ ((Pattern.firstOf [.mark mark, .word w] : Pattern ν).run cx env) o d :=
    (lacks_token hsteps h).orElse_lacks ((lacks_token hsteps h').orElse_lacks lacks_never)
  exact lacks_andThen hmark

/-- An alternative is not there where nothing is that it begins with. -/
theorem lacks_alternative {env : Nonterminal → Matcher} (hsteps : cx.limits.maxSteps = none) :
    ∀ a ∈ Trial.alternatives, (∀ k ∈ a.1, ¬ k.Answers cx.source (cx.source.skipBlanks o)) →
      Lacks δ (a.2.run cx env) o d := by
  simp only [Trial.alternatives, List.forall_mem_cons, List.not_mem_nil, false_implies,
    implies_true, and_true]
  exact ⟨fun h => lacks_andEdit (lacks_sequence hsteps h),
    fun h => lacks_andEdit (lacks_sequence hsteps h), fun h => lacks_function hsteps h.1 h.2,
    fun h => lacks_andEdit (lacks_sequence hsteps h),
    fun h => lacks_andEdit (lacks_wrapped hsteps h.1 h.2),
    fun h => lacks_andEdit (lacks_wrapped hsteps h.1 h.2),
    fun h => lacks_andEdit (lacks_token hsteps h), lacks_token hsteps,
    fun h => lacks_andEdit (lacks_sequence hsteps h), lacks_token hsteps⟩

/-- What a value is read by, with what the names of the grammar stand for. -/
abbrev rootValue (cx : Context) : Matcher :=
  (value (.ref .value)).run cx (meaning cx)

/-- Where no alternative begins with what comes, there is no value. -/
theorem lacks_value {levels : Nat} {x : Lexeme} (hsteps : cx.limits.maxSteps = none)
    (hx : cx.source.lexeme? o = some x) (hk : x.kind ∉ Trial.openers) :
    Lacks δ (valueWithin cx (levels + 1)) o d := by
  show Lacks δ ((Pattern.firstOf (Trial.alternatives.map Prod.snd)).run cx
    fun _ => valueWithin cx levels) o d
  refine lacks_firstOf fun q hq => ?_
  obtain ⟨a, ha, rfl⟩ := List.mem_map.1 hq
  refine lacks_alternative hsteps a ha fun kind hkind =>
    Source.not_answers_of_lexeme? hx fun heq => hk ?_
  exact List.mem_flatMap.2 ⟨a, ha, heq ▸ hkind⟩

/-- A value is read by the alternative that its first token belongs to. -/
theorem value_of_alternative {R : Matcher → Prop} (hleft : ∀ p q, R p → R (orElse p q))
    (hright : ∀ p q, Lacks δ p o d → R q → R (orElse p q)) {p : Pattern Nonterminal} {x : Lexeme}
    (hsteps : cx.limits.maxSteps = none) (hx : cx.source.lexeme? o = some x)
    (halt : ∃ a ∈ Trial.alternatives, a.2 = p ∧ x.kind ∈ a.1) (h : R (p.run cx (meaning cx))) :
    R (rootValue cx) := by
  obtain ⟨a, ha, rfl, hk⟩ := halt
  obtain ⟨before, behind, hsplit⟩ := List.append_of_mem ha
  have hvalue : value Trial.inner =
      .firstOf (before.map Prod.snd ++ a.2 :: behind.map Prod.snd) := by
    show Pattern.firstOf (Trial.alternatives.map Prod.snd) = _
    rw [hsplit, List.map_append, List.map_cons]
  have hapart := Trial.alternatives_pairwise
  rw [hsplit, List.pairwise_append] at hapart
  rw [rootValue, hvalue]
  refine firstOf_of_lacks hleft hright (fun q hq => ?_) h
  obtain ⟨b, hb, rfl⟩ := List.mem_map.1 hq
  have hmem : b ∈ Trial.alternatives := hsplit ▸ List.mem_append_left _ hb
  refine lacks_alternative hsteps b hmem fun kind hkind =>
    Source.not_answers_of_lexeme? hx fun heq => ?_
  exact hapart.2.2 b hb a (List.mem_cons_self ..) kind hkind (heq ▸ hk)

theorem goes_value {p : Pattern Nonterminal} {x : Lexeme} (hsteps : cx.limits.maxSteps = none)
    (hx : cx.source.lexeme? o = some x)
    (halt : ∃ a ∈ Trial.alternatives, a.2 = p ∧ x.kind ∈ a.1)
    (h : Goes δ (p.run cx (meaning cx)) o d o' d') : Goes δ (rootValue cx) o d o' d' :=
  value_of_alternative (R := fun q => Goes δ q o d o' d') (fun _ _ => goes_orElse)
    (fun _ _ => Lacks.orElse_goes) hsteps hx halt h

theorem fails_value {p : Pattern Nonterminal} {x : Lexeme} (hsteps : cx.limits.maxSteps = none)
    (hx : cx.source.lexeme? o = some x)
    (halt : ∃ a ∈ Trial.alternatives, a.2 = p ∧ x.kind ∈ a.1)
    (h : Fails δ (p.run cx (meaning cx)) o d e) : Fails δ (rootValue cx) o d e :=
  value_of_alternative (R := fun q => Fails δ q o d e) (fun _ _ => fails_orElse)
    (fun _ _ => Lacks.orElse_fails) hsteps hx halt h

end Matcher

/-! ## Whole sources -/

open Matcher

variable {s : Source} {l : Limits}

theorem Grammar.matcher_soleValue (cx : Context) :
    Goal.value.matcher cx =
      andThen (rootValue cx) (andThen (ahead (endOfInput cx)) done) := rfl

/-- A value that every run comes to the end of is what the source is parsed as. -/
theorem Parse.ok_of_goes (hroom : 0 < l.maxDepth) (h : Goes 1 (rootValue ⟨s, l⟩) 0 .blank o' d)
    (hend : s.isSpent o' = true) :
    ∃ p, parse .value s l = .ok p ∧ p.node = d.finish (s.spanOf 0 o') := by
  obtain ⟨r', -, hrun⟩ := h Progress.none.deeper rfl
  exact ⟨_, Parse.value_of_run hroom hrun hend, rfl⟩

/-- An error that breaks every run off is what the parse comes to. -/
theorem Parse.error_of_fails (hroom : 0 < l.maxDepth)
    (h : Fails 1 (rootValue ⟨s, l⟩) 0 .blank e) : parse .value s l = .error (e.locate s) := by
  obtain ⟨t, hrun⟩ := fails_andThen (q := andThen (ahead (endOfInput ⟨s, l⟩)) done) h
    Progress.none.deeper rfl
  rw [← Grammar.matcher_soleValue] at hrun
  have hout : Parse.outcome .value ⟨s, l⟩ = _ := Parse.outcome_of_room hroom
  rw [hrun] at hout
  exact parse_eq_error.2 ⟨_, _, hout, rfl⟩

end WeLang
