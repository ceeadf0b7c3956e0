import WeLang.Proofs.Following
import WeLang.Proofs.Wording

/-!
# The choice of an alternative

A value is read by the first of ten alternatives that matches, and a repetition
goes on for as long as there is something it matches. Neither is ever
reconsidered, and neither has to be: no two alternatives begin with the same kind
of token, so that the first token of a value tells which of them is meant
(`Trial.alternative_follows`), and what no value begins with is left alone
(`Trial.nested_refuses`).

The books that are kept on the way are about the texts of the tokens, of which the
kinds say nothing: numerals have to fit and keys have to be new.
-/

namespace WeLang

/-- The keys of the entries that a draft has. -/
def Draft.entryKeys (d : Draft) : List String :=
  d.entries.toList.map Prod.fst

theorem Draft.hasEntry_iff {d : Draft} {key : String} :
    d.hasEntry key = true ↔ key ∈ d.entryKeys := by
  rw [hasEntry, ← Array.any_toList, List.any_eq_true]
  simp [entryKeys]

theorem Draft.attachEntry_eq {d : Draft} {key : String} {span : Span} (n : Node)
    (h : d.keys.back? = some (key, span)) :
    Draft.attachEntry n d =
      if key ∈ d.entryKeys then
        .error { cause := .duplicateKey key, span } { d with keys := d.keys.pop }
      else .ok () { d with keys := d.keys.pop, entries := d.entries.push (key, n) } := by
  have hentry : ({ d with keys := d.keys.pop } : Draft).hasEntry key = true ↔ key ∈ d.entryKeys :=
    Draft.hasEntry_iff
  simp only [Draft.attachEntry, h, Option.getD_some, Draft.insertEntry, hentry]

theorem Draft.entryKeys_of_attachUsing {n : Node} {d d' : Draft}
    (h : Draft.attachUsing n d = .ok () d') : d'.entryKeys = d.entryKeys := by
  rw [Draft.attachUsing] at h
  cases hp : n.payload <;>
    · rw [hp] at h
      cases h
      rfl

namespace Trial

open TokenKind WeLang.Language Grammar

variable {c : Trial} {o stop δ l : Nat} {ws us vs rest : List TokenKind} {good : Prop}
  {maps : List (List String)} {A B C : Assertion}

/-! ## Books -/

/-- Where values are read at a depth of `δ` and the maps `maps` are open: the depth
is at most as great as the offset, or one greater as long as nothing of the value
has been read, and all is good if the rest is worded well. -/
def Ready (c : Trial) (δ : Nat) (good : Prop) (slack : Nat) (maps : List (List String)) :
    Assertion := fun o _ =>
  δ ≤ o + slack ∧ o ≤ c.cx.source.size ∧ ∃ last, (good ↔ c.cx.source.WellWorded last maps o)

/-- Where a value is about to be read. -/
def Fresh (c : Trial) (δ : Nat) (good : Prop) (maps : List (List String)) : Assertion :=
  fun o d => c.Ready δ good 1 maps o d ∧ d = .blank

theorem Follows.weaken {p : Matcher} {A' B' : Assertion} (h : c.Follows δ good p ws rest A B)
    (hA : ∀ {o d}, c.fork? = none → A' o d → A o d) (hB : ∀ {o d}, B o d → B' o d) :
    c.Follows δ good p ws rest A' B' :=
  ⟨h.lawful, fun hδ htrack hbook => (h.ends hδ htrack fun hnone => hA hnone (hbook hnone)).mono
    (fun _ _ h => ⟨h.1, h.2.1, fun hnone => hB (h.2.2 hnone)⟩) fun _ => id⟩

/-- The kinds that have no say in whether a source is worded well. -/
def isPlain (k : TokenKind) : Bool :=
  k != .integer && k != .symbol .define && k != .symbol .mapStart && k != .symbol .mapEnd

theorem wellWorded_iff_of_plain {s : Source} {x : Lexeme} {last : String}
    (h : s.lexeme? o = some x) (hk : isPlain x.kind = true) :
    s.WellWorded last maps o ↔ s.WellWorded x.text maps x.span.stop := by
  simp only [isPlain, Bool.and_eq_true, bne_iff_ne] at hk
  obtain ⟨⟨⟨hint, hdef⟩, hstart⟩, hend⟩ := hk
  rw [Source.wellWorded_iff h]
  have : keysAfter x.kind last maps = maps := by
    unfold keysAfter
    split <;> simp_all
  simp [hint, hdef, this]

theorem token_room {s : Source} {x : Lexeme} {slack : Nat} (hs : slack ≤ 1)
    (h : s.lexeme? o = some x) (hδ : δ ≤ o + slack) :
    δ ≤ x.span.stop ∧ x.span.stop ≤ s.size := by
  have := Source.lexeme?_bounds h
  omega

/-- A token that is read whatever it looks like. -/
theorem plain_follows {k : TokenKind} {note : Lexeme → Edit} (hk : isPlain k = true)
    (hnote : ∀ x, (note x).RefusedFor fun _ => False) {slack : Nat} (hs : slack ≤ 1) :
    c.Follows δ good (Matcher.token c.cx k note) [k] rest (c.Ready δ good slack maps)
      (c.Ready δ good 0 maps) := by
  refine token_follows (fun x d e d' h => (hnote x d e d' h).elim) ?_ ?_
  · intro o x d d' hx heq hready _
    subst heq
    obtain ⟨hδ, _, last, hgood⟩ := hready
    obtain ⟨hroom, hle⟩ := token_room hs hx hδ
    exact ⟨hroom, hle, x.text, hgood.trans (wellWorded_iff_of_plain hx hk)⟩
  · intro o x d e d' _ _ _ h
    exact (hnote x d e d' h).elim

theorem expect_follows {k : TokenKind} (hk : isPlain k = true) {slack : Nat} (hs : slack ≤ 1) :
    c.Follows δ good (Matcher.expect c.cx k) [k] rest (c.Ready δ good slack maps)
      (c.Ready δ good 0 maps) :=
  plain_follows hk (fun _ => .pure) hs

theorem expect_refuses {k : TokenKind} (h : ws.head? ≠ some k) :
    c.Refuses δ good (Matcher.expect c.cx k) ws A :=
  token_refuses (fun _ => .pure) h

/-! ## Values -/

/-- The matcher of a pattern, with so many levels left for the values inside. -/
def within (c : Trial) (l : Nat) (p : Pattern Nonterminal) : Matcher :=
  p.run c.cx fun .value => valueWithin c.cx l

theorem within_lawful {p : Pattern Nonterminal} (h : p.Honest (·.isFatal = true)) :
    c.Lawful (c.within l p) :=
  Pattern.run_lawful (refusals_fatal _) (fun _ => valueWithin_lawful _ _) h

/-- What may come behind a value. -/
def Closes (ws : List TokenKind) : Prop :=
  ws.head? ≠ some (.symbol .identifierSeparator)

/-- Enough levels are left at a depth. -/
def Deep (c : Trial) (l δ : Nat) : Prop :=
  c.fork? = none → c.cx.limits.maxDepth + 1 ≤ l + δ

/-- Values of the kinds `ws` are read wherever they stand. -/
def Parsable (c : Trial) (ws : List TokenKind) : Prop :=
  ∀ {l δ good maps rest}, c.Deep l δ → Closes rest →
    c.Follows δ good (valueWithin c.cx l) ws rest (c.Fresh δ good maps) (c.Ready δ good 0 maps)

/-- The value that refers to values. -/
abbrev inner : Pattern Nonterminal :=
  .ref .value

theorem valueWithin_follows (hl : c.Deep l δ)
    (h : ∀ l', c.Deep l' (δ + 1) → c.Follows δ good (c.within l' (value inner)) ws rest
      (c.Fresh δ good maps) B) :
    c.Follows δ good (valueWithin c.cx l) ws rest (c.Fresh δ good maps) B := by
  cases l with
  | zero =>
      refine ⟨valueWithin_lawful _ _, fun {o s} hδ _ hbook => .fatal fun hnone => ?_⟩
      have := hl hnone
      have := c.roomy hnone
      obtain ⟨⟨_, _, _⟩, _⟩ := hbook hnone
      omega
  | succ l =>
      refine h l fun hnone => ?_
      have := hl hnone
      omega

theorem valueWithin_refuses (hl : c.Deep l δ)
    (h : ∀ l', c.Refuses δ good (c.within l' (value inner)) ws (c.Fresh δ good maps)) :
    c.Refuses δ good (valueWithin c.cx l) ws (c.Fresh δ good maps) := by
  cases l with
  | zero =>
      refine ⟨valueWithin_lawful _ _, fun {o s} hδ _ hbook => .fatal fun hnone => ?_⟩
      have := hl hnone
      have := c.roomy hnone
      obtain ⟨⟨_, _, _⟩, _⟩ := hbook hnone
      omega
  | succ l => exact h l

theorem room_of_ready {d : Draft} (hnone : c.fork? = none) (h : c.Ready δ good 0 maps o d) :
    δ < c.cx.limits.maxDepth := by
  have := c.roomy hnone
  obtain ⟨_, _, _⟩ := h
  omega

theorem nested_follows (h : c.Parsable ws) (hl : c.Deep l (δ + 1)) (hr : Closes rest) :
    c.Follows δ good (c.within l (nested inner)) ws rest (c.Ready δ good 0 maps)
      (c.Ready δ good 0 maps) := by
  refine child_follows (fun _ => .modify _) (valueWithin_lawful _ _) room_of_ready
    fun {o d} hready => ⟨good, fun stop => c.Ready (δ + 1) good 0 maps stop .blank,
      (h hl hr).weaken ?_ id, fun _ => ⟨id, ?_, fun _ h => nomatch h⟩⟩
  · intro o' e hnone hsame
    obtain ⟨rfl, rfl⟩ := hsame
    obtain ⟨hδ, hrest⟩ := hready hnone
    exact ⟨⟨by omega, hrest⟩, rfl⟩
  · intro stop n d' hready' _
    obtain ⟨hδ, hrest⟩ := hready'
    exact ⟨by omega, hrest⟩

/-! ## Alternatives -/

/-- The alternatives for a value in the order in which they are tried, each with the
kinds that it may begin with. -/
def alternatives : List (List TokenKind × Pattern Nonterminal) :=
  [([symbol .listStart], list inner), ([symbol .mapStart], map inner),
    ([keyword .fnWord, symbol .functionStart], function inner),
    ([symbol .typeParameterStart], typeParameter inner),
    ([symbol .typeAlias, keyword .aliasWord], typeAlias inner),
    ([symbol .typeIdentity, keyword .identityWord], typeIdentity inner),
    ([symbol .discard], discard), ([.integer], Grammar.integer),
    ([.identifier], identifierChain), ([.string], Grammar.string)]

/-- No two of them may begin with the same kind. -/
theorem alternatives_pairwise :
    alternatives.Pairwise fun a b => ∀ k ∈ a.1, k ∉ b.1 := by
  simp [alternatives]

theorem alternatives_honest : ∀ a ∈ alternatives, a.2.Honest (·.isFatal = true) := by
  simp only [alternatives, List.forall_mem_cons, List.not_mem_nil, false_implies, implies_true,
    and_true]
  exact ⟨list_honest ref_honest, map_honest ref_honest, function_honest ref_honest,
    typeParameter_honest ref_honest, typeAlias_honest ref_honest, typeIdentity_honest ref_honest,
    discard_honest, integer_honest, identifierChain_honest, string_honest⟩

/-- The kinds that a value may begin with. -/
def openers : List TokenKind :=
  alternatives.flatMap Prod.fst

theorem exists_opener (h : IsValue ws) : ∃ k ks, ws = k :: ks ∧ k ∈ openers := by
  cases h with
  | function word =>
      cases word <;> exact ⟨_, _, rfl, by decide⟩
  | typeAlias word =>
      cases word <;> exact ⟨_, _, rfl, by decide⟩
  | typeIdentity word =>
      cases word <;> exact ⟨_, _, rfl, by decide⟩
  | _ => exact ⟨_, _, rfl, by decide⟩

/-- The first alternative that has a use for what comes is the right one. -/
theorem firstOf_follows {ps qs : List (Pattern Nonterminal)} {p : Pattern Nonterminal}
    (hhonest : ∀ q ∈ ps ++ p :: qs, q.Honest (·.isFatal = true))
    (hps : ∀ q ∈ ps, c.Refuses δ good (c.within l q) (ws ++ rest) A)
    (hp : c.Follows δ good (c.within l p) ws rest A B) :
    c.Follows δ good (c.within l (.firstOf (ps ++ p :: qs))) ws rest A B := by
  induction ps with
  | nil =>
      refine Follows.orElse hp ?_
      cases qs with
      | nil => exact .inr rfl
      | cons q qs =>
          refine .inl (within_lawful
            (Pattern.firstOf_honest (List.cons_ne_nil q qs) fun r hr => ?_))
          exact hhonest r (List.mem_cons_of_mem _ hr)
  | cons q ps ih =>
      simp only [List.cons_append, List.forall_mem_cons] at hhonest hps
      exact Refuses.orElse_follows hps.1 (ih hhonest.2 hps.2)

theorem firstOf_refuses {ps : List (Pattern Nonterminal)} (hne : ps ≠ [])
    (hps : ∀ q ∈ ps, c.Refuses δ good (c.within l q) ws A) :
    c.Refuses δ good (c.within l (.firstOf ps)) ws A := by
  induction ps with
  | nil => exact absurd rfl hne
  | cons p ps ih =>
      rw [List.forall_mem_cons] at hps
      cases ps with
      | nil => exact Refuses.orElse_never hps.1
      | cons q qs => exact Refuses.orElse hps.1 (ih (List.cons_ne_nil _ _) hps.2)

/-- What begins with a token of another kind refuses. -/
theorem sequence_refuses {k : TokenKind} {note : Lexeme → Edit} {ps : List (Pattern Nonterminal)}
    (h : (Pattern.sequence (.token k note :: ps) : Pattern Nonterminal).Honest (·.isFatal = true))
    (hk : ws.head? ≠ some k) :
    c.Refuses δ good (c.within l (.sequence (.token k note :: ps))) ws A :=
  Refuses.andThen (token_refuses h.1 hk) (within_lawful h.2)

theorem list_refuses (h : ws.head? ≠ some (symbol .listStart)) :
    c.Refuses δ good (c.within l (list inner)) ws A :=
  Refuses.andEdit (sequence_refuses (list_honest ref_honest).1 h) fun _ => .modify _

theorem map_refuses (h : ws.head? ≠ some (symbol .mapStart)) :
    c.Refuses δ good (c.within l (map inner)) ws A :=
  Refuses.andEdit (sequence_refuses (map_honest ref_honest).1 h) fun _ => .modify _

theorem function_refuses (h : ws.head? ≠ some (keyword .fnWord))
    (h' : ws.head? ≠ some (symbol .functionStart)) :
    c.Refuses δ good (c.within l (function inner)) ws A :=
  Refuses.andEdit (Refuses.andThen_of_skip (fun _ => Refuses.optional (expect_refuses h))
    (sequence_refuses (function_honest ref_honest).1.2 h')) fun _ => .modify _

theorem typeParameter_refuses (h : ws.head? ≠ some (symbol .typeParameterStart)) :
    c.Refuses δ good (c.within l (typeParameter inner)) ws A :=
  Refuses.andEdit (sequence_refuses (typeParameter_honest ref_honest).1 h) fun _ => .modify _

theorem wrapped_refuses {m : Symbol} {w : Keyword} (h : ws.head? ≠ some (symbol m))
    (h' : ws.head? ≠ some (keyword w)) :
    c.Refuses δ good (c.within l (wrapped inner m w)) ws A :=
  Refuses.andThen (Refuses.orElse (expect_refuses h) (Refuses.orElse_never (expect_refuses h')))
    (within_lawful (wrapped_honest ref_honest m w).2)

theorem typeAlias_refuses (h : ws.head? ≠ some (symbol .typeAlias))
    (h' : ws.head? ≠ some (keyword .aliasWord)) :
    c.Refuses δ good (c.within l (typeAlias inner)) ws A :=
  Refuses.andEdit (wrapped_refuses h h') fun _ => .modify _

theorem typeIdentity_refuses (h : ws.head? ≠ some (symbol .typeIdentity))
    (h' : ws.head? ≠ some (keyword .identityWord)) :
    c.Refuses δ good (c.within l (typeIdentity inner)) ws A :=
  Refuses.andEdit (wrapped_refuses h h') fun _ => .modify _

theorem discard_refuses (h : ws.head? ≠ some (symbol .discard)) :
    c.Refuses δ good (c.within l discard) ws A :=
  Refuses.andEdit (expect_refuses h) fun _ => .modify _

theorem integer_refuses (h : ws.head? ≠ some .integer) :
    c.Refuses δ good (c.within l Grammar.integer) ws A :=
  token_refuses (fun x => Draft.attachNumeral_refusedFor x.text x.span) h

theorem identifierChain_refuses (h : ws.head? ≠ some .identifier) :
    c.Refuses δ good (c.within l identifierChain) ws A :=
  Refuses.andEdit (sequence_refuses identifierChain_honest.1 h) fun _ => .modify _

theorem string_refuses (h : ws.head? ≠ some .string) :
    c.Refuses δ good (c.within l Grammar.string) ws A :=
  token_refuses (fun _ => .modify _) h

/-- An alternative refuses what it does not begin with. -/
theorem alternatives_refuse : ∀ a ∈ alternatives, (∀ k ∈ a.1, ws.head? ≠ some k) →
    c.Refuses δ good (c.within l a.2) ws A := by
  simp only [alternatives, List.forall_mem_cons, List.not_mem_nil, false_implies, implies_true,
    and_true]
  exact ⟨list_refuses, map_refuses, fun h => function_refuses h.1 h.2, typeParameter_refuses,
    fun h => typeAlias_refuses h.1 h.2, fun h => typeIdentity_refuses h.1 h.2, discard_refuses,
    integer_refuses, identifierChain_refuses, string_refuses⟩

/-- A value refuses what no value begins with. -/
theorem value_refuses (h : ∀ k ∈ openers, ws.head? ≠ some k) :
    c.Refuses δ good (c.within l (value inner)) ws A := by
  refine firstOf_refuses (List.cons_ne_nil _ _) fun q hq => ?_
  obtain ⟨a, ha, rfl⟩ := List.mem_map.1 (show q ∈ alternatives.map Prod.snd from hq)
  exact alternatives_refuse a ha fun k hk => h k (List.mem_flatMap.2 ⟨a, ha, hk⟩)

/-- A value is read by the alternative that its first token belongs to. -/
theorem alternative_follows {p : Pattern Nonterminal} {k : TokenKind}
    (halt : ∃ a ∈ alternatives, a.2 = p ∧ k ∈ a.1) (hhead : ws.head? = some k)
    (h : c.Follows δ good (c.within l p) ws rest A B) :
    c.Follows δ good (c.within l (value inner)) ws rest A B := by
  obtain ⟨a, ha, rfl, hk⟩ := halt
  obtain ⟨before, behind, hsplit⟩ := List.append_of_mem ha
  have hvalue : value inner =
      .firstOf (before.map Prod.snd ++ a.2 :: behind.map Prod.snd) := by
    show Pattern.firstOf (alternatives.map Prod.snd) = _
    rw [hsplit, List.map_append, List.map_cons]
  have hapart := alternatives_pairwise
  rw [hsplit, List.pairwise_append] at hapart
  have hhead' : (ws ++ rest).head? = some k := by
    cases ws with
    | nil => cases hhead
    | cons w ws => exact hhead
  rw [hvalue]
  refine firstOf_follows (fun q hq => ?_) (fun q hq => ?_) h
  · rw [← List.map_cons, ← List.map_append, ← hsplit] at hq
    obtain ⟨b, hb, rfl⟩ := List.mem_map.1 hq
    exact alternatives_honest b hb
  · obtain ⟨b, hb, rfl⟩ := List.mem_map.1 hq
    refine alternatives_refuse b (hsplit ▸ List.mem_append_left _ hb) fun j hj hjhead => ?_
    obtain rfl := Option.some.inj (hhead'.symm.trans hjhead)
    exact hapart.2.2 b hb a (List.mem_cons_self ..) _ hj hk

theorem nested_refuses (hl : c.Deep l (δ + 1)) (h : ∀ k ∈ openers, ws.head? ≠ some k) :
    c.Refuses δ good (c.within l (nested inner)) ws (c.Ready δ good 0 maps) := by
  have hinner : c.Refuses (δ + 1) good (valueWithin c.cx l) ws (c.Fresh (δ + 1) good maps) :=
    valueWithin_refuses hl fun _ => value_refuses h
  refine hinner.child (fun _ => .modify _)
    fun hnone hready => ⟨room_of_ready hnone hready, ⟨?_, hready.2⟩, rfl⟩
  have := hready.1
  omega

end Trial

end WeLang
