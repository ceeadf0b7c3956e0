import WeLang.Proofs.Choice
import WeLang.Proofs.Spending

/-!
# A parse is linear

To go back is cheap in this grammar because of how it is written. No two alternatives
for a value begin with the same kind of token, so of ten at most one ever gets further
than its first token, and thirteen kinds of token are all that is asked for in vain. And
what a value can begin with is never what closes a list, a map or a function, what
separates two clauses, or nothing. So if a value is broken off inside of another, nobody
gets any further, and its bytes are not paid for twice (`Matcher.Sparing`).

Two places look as if they were different and are not. The edges of a function may be
read once more as a value, but they are four tokens at most. And a key without a value
is read only once, since it is not what closes a map or ends a module.

So a parse makes at most sixty-four attempts for each byte of its source, and as many for
the end (`attempts_linear`).
-/

namespace WeLang

open Matcher Grammar Pattern Trial

variable {cx : Context} {D D' : Nat → Prop} {c c' d d' : Int} {n : Nat}

namespace Pattern

variable {ν : Type} {env : ν → Matcher} {p : Pattern ν} {ps : List (Pattern ν)}

/-! ## Sequences and choices -/

theorem expect_frugal (k : TokenKind) :
    Frugal cx Nowhere (-63) (-63) ((expect k : Pattern ν).run cx env) :=
  token_frugal cx k _

theorem sequence_singleton_frugal (h : Frugal cx D c d (p.run cx env)) :
    Frugal cx D c d ((sequence [p]).run cx env) :=
  andThen_done_frugal h

/-- Behind a pattern that does not owe anything may come. -/
theorem sequence_frugal (hp : Frugal cx Nowhere c d (p.run cx env))
    (hps : Frugal cx D' c' d' ((sequence ps).run cx env)) :
    Frugal cx D' (c + c') (max d (c + d')) ((sequence (p :: ps)).run cx env) :=
  (andThen_frugal hp hps (balks_nowhere _)).mono (by omega) (by omega)

theorem sequence_frugal_of_balks (hp : Frugal cx D c d (p.run cx env))
    (hps : Frugal cx D' c' d' ((sequence ps).run cx env))
    (hbalk : Balks D n ((sequence ps).run cx env)) :
    Frugal cx D' (c + c') (max (d + n) (c + d')) ((sequence (p :: ps)).run cx env) :=
  andThen_frugal hp hps hbalk

theorem sequence_shy {k : TokenKind} :
    Shy cx [k] ((sequence (expect k :: ps)).run cx env) :=
  andThen_balks (token_shy cx k _) _

/-- Alternatives of which no two begin with the same kind of token cost what one of them
costs, and the kinds that the others ask for. -/
theorem firstOf_frugal {as : List (List TokenKind × Pattern ν)}
    (hapart : as.Pairwise fun a b => ∀ k ∈ a.1, k ∉ b.1) (hd : -64 ≤ d)
    (h : ∀ a ∈ as, Frugal cx Nowhere c d (a.2.run cx env) ∧ Shy cx a.1 (a.2.run cx env)) :
    Frugal cx Nowhere (c + (as.flatMap Prod.fst).length) (d + (as.flatMap Prod.fst).length)
        ((firstOf (as.map Prod.snd)).run cx env) ∧
      Shy cx (as.flatMap Prod.fst) ((firstOf (as.map Prod.snd)).run cx env) := by
  induction as with
  | nil => exact ⟨never_frugal (by simpa using hd), never_balks _⟩
  | cons a as ih =>
      obtain ⟨hfirst, hrest⟩ := List.forall_mem_cons.1 h
      obtain ⟨hapart_a, hapart⟩ := List.pairwise_cons.1 hapart
      obtain ⟨hfrugal, hshy⟩ := ih hapart hrest
      have hdis : ∀ k ∈ a.1, k ∉ as.flatMap Prod.fst := by
        intro k hk hmem
        obtain ⟨b, hb, hkb⟩ := List.mem_flatMap.1 hmem
        exact hapart_a b hb k hk hkb
      have hlen : ((a :: as).flatMap Prod.fst).length =
          a.1.length + (as.flatMap Prod.fst).length := by
        rw [List.flatMap_cons, List.length_append]
      constructor
      · refine (orElse_frugal hfirst.1 hfrugal hfirst.2.missesFor (hshy.balks hdis)).mono ?_ ?_ <;>
          · rw [hlen]
            omega
      · rw [Shy, hlen]
        refine orElse_balks (hfirst.2.mono fun o hno hbegins => hno ?_)
          (hshy.mono fun o hno hbegins => hno ?_)
        · exact hbegins.mono (List.subset_append_left _ _)
        · exact hbegins.mono (List.subset_append_right _ _)

end Pattern

/-! ## Values inside of values -/

/-- A matcher of values that pays for what it reads, and asks for what a value begins with
first. -/
structure Matcher.Sparing (cx : Context) (p : Matcher) : Prop where
  frugal : Frugal cx Nowhere 0 0 p
  shy : Shy cx openers p

theorem Matcher.Sparing.child {p : Matcher} (h : Sparing cx p) (attach : Node → Edit) :
    Sparing cx (Matcher.child cx p attach) :=
  ⟨child_frugal h.frugal (by decide) (by decide) attach, child_balks h.shy attach⟩

namespace Grammar

variable {env : Nonterminal → Matcher}

/-! ## Simple values -/

theorem discard_frugal : Frugal cx Nowhere (-63) (-63) (discard.run cx env) :=
  andEdit_frugal (expect_frugal _) (by decide) _

/-- A dot without a name behind it costs two attempts. -/
theorem identifierChain_frugal : Frugal cx Nowhere (-61) (-63) (identifierChain.run cx env) := by
  have hsegment : Frugal cx Nowhere (-63) (-63) (segment.run cx env) :=
    token_frugal cx _ _
  have hnext := sequence_frugal (expect_frugal (.symbol .identifierSeparator))
    (sequence_singleton_frugal hsegment)
  have hflat : Flat 2
      ((Pattern.sequence [.mark .identifierSeparator, segment]).run cx env) :=
    andThen_flat (token_flat cx _ _) (andThen_flat (token_flat cx _ _) done_flat)
  have hmany : Frugal cx Nowhere (2 : Nat) (-63)
      ((Pattern.many (.sequence [.mark .identifierSeparator, segment])).run cx env) :=
    many_frugal hnext (by decide) (fun _ => id) hflat.missesFor (balks_nowhere _)
  have hall := sequence_frugal hsegment (sequence_singleton_frugal hmany)
  exact andEdit_frugal (hall.mono (by decide) (by decide)) (by decide) _

/-! ## Values made of values -/

/-- Where an item of a list is broken off, the bracket is missing. -/
theorem list_frugal (h : Sparing cx (env .value)) :
    Frugal cx Nowhere (-13) (-13) ((list (.ref .value)).run cx env) := by
  have hitem := h.child Draft.pushChild
  have hitems : Frugal cx (cx.source.Begins openers) 14 0
      ((Pattern.separated (nested (.ref .value)) (.symbol .listSeparator)).run cx env) :=
    separated_frugal hitem.frugal (by decide) (by decide) hitem.shy.missesFor _
  have hrest := sequence_frugal_of_balks hitems
    (sequence_singleton_frugal (expect_frugal (.symbol .listEnd)))
    (sequence_shy.balks (by decide))
  have hall := sequence_frugal (expect_frugal (.symbol .listStart)) hrest
  exact andEdit_frugal (hall.mono (by decide) (by decide)) (by decide) _

theorem entry_frugal (h : Sparing cx (env .value)) :
    Frugal cx Nowhere (-126) (-63) ((entry (.ref .value)).run cx env) := by
  have hkey : Frugal cx Nowhere (-63) (-63) ((Pattern.token .identifier
      fun lexeme => Draft.pushKey lexeme.text lexeme.span : Pattern Nonterminal).run cx env) :=
    token_frugal cx _ _
  have hvalue : Frugal cx Nowhere 0 0
      ((Pattern.child (.ref .value) Draft.attachEntry).run cx env) :=
    (h.child _).frugal
  have hall := sequence_frugal hkey (sequence_frugal (expect_frugal (.symbol .define))
    (sequence_singleton_frugal hvalue))
  exact hall.mono (by decide) (by decide)

theorem entry_shy : Shy cx [.identifier] ((entry (.ref .value)).run cx env) :=
  andThen_balks (token_shy cx _ _) _

/-- An entry that is broken off leaves a name behind. -/
theorem entries_frugal (h : Sparing cx (env .value)) :
    Frugal cx (cx.source.Begins [.identifier]) 1 (-63)
      ((Pattern.many (entry (.ref .value))).run cx env) :=
  many_frugal (entry_frugal h) (by decide) (fun _ h => h.elim) entry_shy.missesFor
    (balks_nowhere _)

theorem map_frugal (h : Sparing cx (env .value)) :
    Frugal cx Nowhere (-13) (-13) ((map (.ref .value)).run cx env) := by
  have hrest := sequence_frugal_of_balks (entries_frugal h)
    (sequence_singleton_frugal (expect_frugal (.symbol .mapEnd)))
    (sequence_shy.balks (by decide))
  have hall := sequence_frugal (expect_frugal (.symbol .mapStart)) hrest
  exact andEdit_frugal (hall.mono (by decide) (by decide)) (by decide) _

/-- The edges of a function are four tokens, or nothing after at most four attempts. -/
theorem signature_frugal :
    Frugal cx Nowhere 4 (-63) ((Pattern.optional signature : Pattern Nonterminal).run cx env) := by
  have hname (note : Lexeme → Edit) : Frugal cx Nowhere (-63) (-63)
      ((Pattern.token .identifier note : Pattern Nonterminal).run cx env) :=
    token_frugal cx _ _
  have hall := sequence_frugal (expect_frugal (.symbol .typeParameterStart))
    (sequence_frugal (hname fun lexeme =>
        modify fun d => { d with inType := some (.leaf lexeme.text) })
      (sequence_frugal (hname fun lexeme =>
          modify fun d => { d with outType := some (.leaf lexeme.text) })
        (sequence_singleton_frugal (expect_frugal (.symbol .typeParameterEnd)))))
  have hflat : Flat 4 ((signature : Pattern Nonterminal).run cx env) :=
    andThen_flat (token_flat cx _ _) (andThen_flat (token_flat cx _ _)
      (andThen_flat (token_flat cx _ _) (andThen_flat (token_flat cx _ _) done_flat)))
  exact (optional_frugal hall hflat).mono (by decide) (by decide)

/-- Where a value of a clause is broken off, the clause ends. -/
theorem clause_frugal (h : Sparing cx (env .value)) :
    Frugal cx (cx.source.Begins openers) 13 0 ((clause (.ref .value)).run cx env) := by
  have hvalue := h.child Draft.pushChild
  have hmany : Frugal cx (cx.source.Begins openers) 13 0
      ((Pattern.many (nested (.ref .value))).run cx env) :=
    many_frugal hvalue.frugal (by decide) (fun _ h => h.elim) hvalue.shy.missesFor
      (balks_nowhere _)
  exact andEdit_frugal hmany (by decide) _

/-- Clauses end where no separator is, also when a value of the last one was broken off. -/
theorem clauses_frugal (h : Sparing cx (env .value)) :
    Frugal cx (cx.source.Begins (.symbol .clauseSeparator :: openers)) 1 (-49)
      ((Pattern.many (.sequence [.mark .clauseSeparator, clause (.ref .value)])).run cx env) := by
  have hnext := sequence_frugal (expect_frugal (.symbol .clauseSeparator))
    (sequence_singleton_frugal (clause_frugal h))
  have hshy : Shy cx [.symbol .clauseSeparator]
      ((Pattern.sequence [.mark .clauseSeparator, clause (.ref .value)]).run cx env) :=
    sequence_shy
  refine (many_frugal hnext (by decide) (fun o hbegins => ?_) (hshy.missesFor.mono ?_)
    (hshy.balks (by decide))).mono (by decide) (by decide)
  · exact hbegins.mono (List.subset_cons_self _ _)
  · exact fun o hbegins => hbegins.mono (by simp)

/-- What separates clauses and what closes a function is nothing that a value begins
with. -/
theorem function_frugal (h : Sparing cx (env .value)) :
    Frugal cx Nowhere (-13) (-13) ((function (.ref .value)).run cx env) := by
  have hword : Frugal cx Nowhere 1 (-63)
      ((Pattern.optional (.word .fnWord) : Pattern Nonterminal).run cx env) :=
    optional_frugal (token_frugal cx _ _) (token_flat cx _ _)
  have hclauses := sequence_frugal_of_balks (clauses_frugal h)
    (sequence_singleton_frugal (expect_frugal (.symbol .functionEnd)))
    (sequence_shy.balks (by decide))
  have hbalk : Balks (cx.source.Begins openers) 2
      ((Pattern.sequence [.many (.sequence [.mark .clauseSeparator, clause (.ref .value)]),
        .mark .functionEnd]).run cx env) :=
    Idles.andThen_balks (sequence_shy.balks (by decide)).many_idles
      (sequence_shy.balks (by decide))
  have hrest := sequence_frugal_of_balks (clause_frugal h) hclauses hbalk
  have hall := sequence_frugal hword
    (sequence_frugal (expect_frugal (.symbol .functionStart))
      (sequence_frugal signature_frugal hrest))
  exact andEdit_frugal (hall.mono (by decide) (by decide)) (by decide) _

theorem function_shy :
    Shy cx [.keyword .fnWord, .symbol .functionStart] ((function (.ref .value)).run cx env) := by
  have hword : Balks (fun o => ¬ cx.source.Begins [.keyword .fnWord, .symbol .functionStart] o) 1
      ((Pattern.word .fnWord : Pattern Nonterminal).run cx env) :=
    (token_shy cx _ _).mono fun o hno hbegins => hno (hbegins.mono (by simp))
  have hstart : Balks
      (fun o => ¬ cx.source.Begins [.keyword .fnWord, .symbol .functionStart] o) 1
      ((Pattern.sequence [.mark .functionStart, .optional signature, clause (.ref .value),
        .many (.sequence [.mark .clauseSeparator, clause (.ref .value)]),
        .mark .functionEnd]).run cx env) :=
    sequence_shy.mono fun o hno hbegins => hno (hbegins.mono (by simp))
  exact andEdit_balks (hword.optional_idles.andThen_balks hstart) _

theorem typeParameter_frugal (h : Sparing cx (env .value)) :
    Frugal cx Nowhere (-13) (-13) ((typeParameter (.ref .value)).run cx env) := by
  have hvalue : Frugal cx Nowhere 0 0 ((nested (.ref .value)).run cx env) :=
    (h.child _).frugal
  have hall := sequence_frugal (expect_frugal (.symbol .typeParameterStart))
    (sequence_frugal hvalue (sequence_frugal (expect_frugal (.symbol .listSeparator))
      (sequence_frugal hvalue (sequence_frugal (expect_frugal (.symbol .typeParameterEnd))
        (sequence_singleton_frugal hvalue)))))
  exact andEdit_frugal (hall.mono (by decide) (by decide)) (by decide) _

/-- The mark or the word costs an attempt each. -/
theorem wrapped_frugal (h : Sparing cx (env .value)) (m : Symbol) (w : Keyword) :
    Frugal cx Nowhere (-13) (-13) ((wrapped (.ref .value) m w).run cx env) ∧
      Shy cx [.symbol m, .keyword w] ((wrapped (.ref .value) m w).run cx env) := by
  have hvalue : Frugal cx Nowhere 0 0 ((nested (.ref .value)).run cx env) :=
    (h.child _).frugal
  let words : List (List TokenKind × Pattern Nonterminal) :=
    [([.symbol m], .mark m), ([.keyword w], .word w)]
  have hwords : ∀ a ∈ words,
      Frugal cx Nowhere (-63) (-63) (a.2.run cx env) ∧ Shy cx a.1 (a.2.run cx env) := by
    simp only [words, List.forall_mem_cons, List.not_mem_nil, false_implies, implies_true,
      and_true]
    exact ⟨⟨expect_frugal _, token_shy cx _ _⟩, expect_frugal _, token_shy cx _ _⟩
  obtain ⟨hmark, hshy⟩ := firstOf_frugal (by simp [words]) (by decide) hwords
  have hmark : Frugal cx Nowhere (-61) (-61) ((firstOf [.mark m, .word w]).run cx env) := hmark
  have hall := sequence_frugal hmark (sequence_singleton_frugal hvalue)
  exact ⟨hall.mono (by decide) (by decide), andThen_balks hshy _⟩

/-! ## Values -/

theorem alternatives_sparing (h : Sparing cx (env .value)) : ∀ a ∈ alternatives,
    Frugal cx Nowhere (-13) (-13) (a.2.run cx env) ∧ Shy cx a.1 (a.2.run cx env) := by
  obtain ⟨halias, halias_shy⟩ := wrapped_frugal h .typeAlias .aliasWord
  obtain ⟨hidentity, hidentity_shy⟩ := wrapped_frugal h .typeIdentity .identityWord
  have htoken (kind : TokenKind) (note : Lexeme → Edit) :
      Frugal cx Nowhere (-13) (-13) (Matcher.token cx kind note) :=
    (token_frugal cx kind note).mono (by decide) (by decide)
  simp only [alternatives, List.forall_mem_cons, List.not_mem_nil, false_implies, implies_true,
    and_true]
  refine ⟨⟨list_frugal h, andEdit_balks sequence_shy _⟩,
    ⟨map_frugal h, andEdit_balks sequence_shy _⟩,
    ⟨function_frugal h, function_shy⟩,
    ⟨typeParameter_frugal h, andEdit_balks sequence_shy _⟩,
    ⟨andEdit_frugal halias (by decide) _, andEdit_balks halias_shy _⟩,
    ⟨andEdit_frugal hidentity (by decide) _, andEdit_balks hidentity_shy _⟩,
    ⟨discard_frugal.mono (by decide) (by decide), andEdit_balks (token_shy cx _ _) _⟩,
    ⟨htoken _ _, token_shy cx _ _⟩,
    ⟨identifierChain_frugal.mono (by decide) (by decide), ?_⟩,
    ⟨htoken _ _, token_shy cx _ _⟩⟩
  exact andEdit_balks (andThen_balks (token_shy cx _ _) _) _

theorem value_sparing (h : Sparing cx (env .value)) :
    Sparing cx ((value (.ref .value)).run cx env) := by
  obtain ⟨hfrugal, hshy⟩ :=
    firstOf_frugal alternatives_pairwise (by decide) (alternatives_sparing h)
  exact ⟨hfrugal.mono (by decide) (by decide), hshy⟩

theorem valueWithin_sparing (cx : Context) (levels : Nat) :
    Sparing cx (valueWithin cx levels) := by
  induction levels with
  | zero =>
      exact ⟨fun _ _ hstart => .error (by omega), fun _ _ _ => ⟨_, _, rfl, Nat.le_add_right _ _⟩⟩
  | succ levels ih => exact value_sparing ih

/-! ## Whole sources -/

theorem soleValue_frugal (h : Sparing cx (env .value)) :
    Frugal cx Nowhere 2 0 ((soleValue (.ref .value)).run cx env) := by
  have hend : Frugal cx Nowhere 0 (-64)
      ((Pattern.ahead .endOfInput : Pattern Nonterminal).run cx env) :=
    ahead_frugal (endOfInput_flat cx)
  have hall := sequence_frugal (value_sparing h).frugal (sequence_singleton_frugal hend)
  exact hall.mono (by decide) (by decide)

/-- Where a chain or an entry of a module is broken off, its first token is neither the
beginning of what comes next nor the end. -/
theorem module_frugal (h : Sparing cx (env .value)) :
    Frugal cx Nowhere 2 0 ((«module» (.ref .value)).run cx env) := by
  have hchain : Frugal cx Nowhere (-61) (-63)
      ((Pattern.child identifierChain Draft.attachUsing).run cx env) :=
    child_frugal identifierChain_frugal (by decide) (by decide) _
  have huse := sequence_frugal (expect_frugal (.keyword .useWord))
    (sequence_singleton_frugal hchain)
  have huses : Frugal cx (cx.source.Begins [.keyword .useWord]) 1 (-63)
      ((Pattern.many useStatement).run cx env) :=
    (many_frugal huse (by decide) (fun _ h => h.elim) sequence_shy.missesFor
      (balks_nowhere _)).mono (by decide) (by decide)
  have hend : Frugal cx Nowhere 0 (-64)
      ((Pattern.sequence [.endOfInput] : Pattern Nonterminal).run cx env) :=
    sequence_singleton_frugal (endOfInput_frugal cx)
  have hbalk (ks : List TokenKind) : Balks (cx.source.Begins ks) 0
      ((Pattern.sequence [.endOfInput] : Pattern Nonterminal).run cx env) :=
    andThen_balks (endOfInput_balks cx ks) _
  have hentries := sequence_frugal_of_balks (entries_frugal h) hend (hbalk _)
  have hbalk' : Balks (cx.source.Begins [.keyword .useWord]) 1
      ((Pattern.sequence [.many (entry (.ref .value)), .endOfInput]).run cx env) :=
    Idles.andThen_balks (entry_shy.balks (by decide)).many_idles (hbalk _)
  have hall := sequence_frugal_of_balks huses hentries hbalk'
  exact andEdit_frugal (hall.mono (by decide) (by decide)) (by decide) _

end Grammar

theorem Goal.matcher_frugal (goal : Goal) (cx : Context) :
    Frugal cx Nowhere 2 0 (goal.matcher cx) := by
  have henv : Sparing cx (meaning cx .value) := valueWithin_sparing cx _
  cases goal with
  | module => exact module_frugal henv
  | value => exact soleValue_frugal henv

/-! ## The bound -/

/-- How many attempts at a token a parse has made when it is over. -/
def Parse.attempts (goal : Goal) (cx : Context) : Nat :=
  match outcome goal cx with
  | .ok _ p | .error _ p => p.attempts

theorem Parse.attempts_le (goal : Goal) (cx : Context) :
    attempts goal cx ≤ 64 * (cx.source.size + 1) := by
  rcases Nat.eq_zero_or_pos cx.limits.maxDepth with hfull | hroom
  · rw [attempts, outcome_of_full hfull]
    exact Nat.zero_le _
  · have h := goal.matcher_frugal cx 0 ⟨.blank, Progress.none.deeper⟩ (Nat.zero_le _)
    rw [attempts, outcome_of_room hroom]
    generalize goal.matcher cx 0 ⟨.blank, Progress.none.deeper⟩ = out at h
    have hnone : (State.mk .blank Progress.none.deeper).progress.attempts = 0 := rfl
    cases h with
    | owing _ _ here _ => exact here.elim
    | ok le bound paid =>
        simp only [Progress.leave]
        omega
    | error paid =>
        simp only [Progress.leave]
        omega

theorem Parse.steps_le_attempts (goal : Goal) (cx : Context) :
    steps goal cx ≤ attempts goal cx := by
  rw [steps, attempts]
  cases outcome goal cx <;> exact Nat.min_le_left _ _

/-- A parse without a bound on its steps makes at most sixty-four attempts for each byte of
its source and as many for the end, whether it succeeds or fails. So a bound that is not
less breaks no parse off. -/
theorem attempts_linear (goal : Goal) (s : Source) (depth : Nat) :
    Parse.attempts goal ⟨s, ⟨none, depth⟩⟩ ≤ 64 * (s.size + 1) ∧
    ∀ m, 64 * (s.size + 1) ≤ m → ∀ e limit,
      parse goal s ⟨some m, depth⟩ = .error e → e.cause ≠ .stepLimitExceeded limit := by
  have hbound : Parse.attempts goal ⟨s, ⟨none, depth⟩⟩ ≤ 64 * (s.size + 1) :=
    Parse.attempts_le goal _
  refine ⟨hbound, fun m hm e limit hparse hcause => ?_⟩
  have hover := (parse_stepLimit_iff goal s depth m).1 ⟨e, limit, hparse, hcause⟩
  have hsteps := Parse.steps_le_attempts goal ⟨s, ⟨none, depth⟩⟩
  omega

/-- In a source of three bytes, three values are broken off, one inside of the other. A
bound of two hundred and fifty-six steps is not what breaks the parse off. -/
theorem attempts_linear_nested :
    Parse.attempts .value ⟨⟨"[(<"⟩, ⟨none, 256⟩⟩ ≤ 256 ∧
      ∃ e, parse .value ⟨"[(<"⟩ ⟨some 256, 256⟩ = .error e ∧
        ∀ limit, e.cause ≠ .stepLimitExceeded limit := by
  obtain ⟨hbound, hcause⟩ := attempts_linear .value ⟨"[(<"⟩ 256
  have hsize : 64 * (Source.size ⟨"[(<"⟩ + 1) = 256 := by decide
  obtain ⟨e, he⟩ : ∃ e, parse .value ⟨"[(<"⟩ ⟨some 256, 256⟩ = .error e := ⟨_, by cbv⟩
  rw [hsize] at hbound
  exact ⟨hbound, e, he, fun limit => hcause 256 (Nat.le_of_eq hsize) e limit he⟩

end WeLang
