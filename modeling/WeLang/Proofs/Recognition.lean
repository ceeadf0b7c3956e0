import WeLang.Proofs.Choice
import WeLang.Proofs.Scanning

/-!
# Recognition

The parser accepts what the grammar describes, and nothing else.

That it accepts nothing else is known (`Goal.matcher_within`). That it accepts all
of it is not obvious, because it takes the first alternative that matches and
repeats things as often as it can, and never reconsiders. It does not have to:
the first token of a value, and in one place the first three, tell which
alternative it is, and what comes behind a value never looks like more of it. The
one exception would be a dot behind a chain of names, and no sentence has one
there. `Trial.value_follows` goes through the productions and shows it for every
value, `Trial.goal_follows` for whole sources.

Along the way the books are kept: what stops the parser short of the end of a
sentence is a numeral that does not fit or a key that is there already, and
nothing else.
-/

namespace WeLang

namespace Trial

open TokenKind WeLang.Language Grammar

variable {c : Trial} {o stop δ l : Nat} {ws us vs rest : List TokenKind} {good : Prop}
  {maps : List (List String)} {A B C : Assertion}

/-! ## Simple values -/

theorem Follows.congr {p : Matcher} (h : c.Follows δ good p ws rest A B) (hw : ws = us) :
    c.Follows δ good p us rest A B :=
  hw ▸ h

theorem Follows.leaving {p : Matcher} (h : c.Follows δ good p ws us A B) (hw : us = vs) :
    c.Follows δ good p ws vs A B :=
  hw ▸ h

/-- What a draft is changed to in the end is of no concern. -/
theorem Follows.complete {p : Matcher} {f : Draft → Draft → Draft} {slack : Nat}
    (h : c.Follows δ good p ws rest A (c.Ready δ good slack maps)) :
    c.Follows δ good (Matcher.andEdit p fun d => modify (f d)) ws rest A
      (c.Ready δ good slack maps) :=
  h.andEdit (fun _ _ => ⟨_, rfl⟩) fun hready _ => hready

theorem discard_follows : c.Follows δ good (c.within l Grammar.discard) [symbol .discard] rest
    (c.Ready δ good 1 maps) (c.Ready δ good 0 maps) :=
  Follows.complete (f := fun _ => Draft.completeDiscard) (expect_follows rfl (Nat.le_refl 1))

theorem string_follows : c.Follows δ good (c.within l Grammar.string) [string] rest
    (c.Ready δ good 1 maps) (c.Ready δ good 0 maps) :=
  plain_follows rfl (fun _ => .modify _) (Nat.le_refl 1)

theorem integer_follows : c.Follows δ good (c.within l Grammar.integer) [.integer] rest
    (c.Ready δ good 1 maps) (c.Ready δ good 0 maps) := by
  refine token_follows (fun x => Draft.attachNumeral_refusedFor x.text x.span) ?_ ?_
  · intro o x d d' hx hk hready h
    obtain ⟨hδ, _, last, hgood⟩ := hready
    obtain ⟨hroom, hle⟩ := token_room (Nat.le_refl 1) hx hδ
    refine ⟨hroom, hle, x.text, hgood.trans ?_⟩
    have hfits : Numeral.Fits x.text := by
      refine Numeral.exists_value_iff.1 ?_
      rw [Draft.attachNumeral] at h
      cases hv : Numeral.value x.text with
      | ok v => exact ⟨v, rfl⟩
      | error cause =>
          rw [hv] at h
          cases h
    rw [Source.wellWorded_iff hx, hk]
    simp [hfits, keysAfter]
  · intro o x d e d' hx hk hready h hall
    obtain ⟨_, _, last, hgood⟩ := hready
    obtain ⟨v, hv⟩ := Numeral.exists_value_iff.2
      (((Source.wellWorded_iff hx).1 (hgood.1 hall)).1 hk)
    rw [Draft.attachNumeral] at h
    rw [hv] at h
    cases h

theorem segment_follows {slack : Nat} (hs : slack ≤ 1) :
    c.Follows δ good (c.within l segment) [identifier] rest (c.Ready δ good slack maps)
      (c.Ready δ good 0 maps) :=
  plain_follows rfl (fun _ => .modify _) hs

theorem identifierChain_follows (n : Nat) (hr : Closes rest) :
    c.Follows δ good (c.within l identifierChain) (chain n) rest (c.Ready δ good 1 maps)
      (c.Ready δ good 0 maps) := by
  have hmore : c.Follows δ good
      (c.within l (.many (.sequence [.mark .identifierSeparator, segment]))) (dotted n) rest
      (c.Ready δ good 0 maps) (c.Ready δ good 0 maps) := by
    refine many_follows (P := (· = [symbol .identifierSeparator, identifier])) ?_ ?_ ?_ ?_
    · intro _ heq
      subst heq
      exact List.cons_ne_nil _ _
    · intro _ vs heq _
      subst heq
      exact Follows.cons (expect_follows rfl (Nat.zero_le 1))
        (segment_follows (Nat.zero_le 1)).last
    · exact sequence_refuses ⟨Pattern.expect_honest _, fun _ => .modify _, trivial⟩ hr
    · intro u hu
      exact List.eq_of_mem_replicate hu
  refine Follows.complete (f := fun _ => Draft.completeChain) ?_
  exact Follows.cons (segment_follows (Nat.le_refl 1)) hmore.last

/-! ## Lists and maps -/

theorem list_follows {first : List TokenKind} {more : List (List TokenKind)} (trailing : Bool)
    (hl : c.Deep l (δ + 1)) (hfirst : c.Parsable first)
    (hmore : ∀ w ∈ more, c.Parsable w) :
    c.Follows δ good (c.within l (list inner))
      (symbol .listStart :: first ++ more.flatMap (symbol .listSeparator :: ·) ++
        maybe trailing [symbol .listSeparator] ++ [symbol .listEnd]) rest
      (c.Ready δ good 1 maps) (c.Ready δ good 0 maps) := by
  have hitems : c.Follows δ good
      (c.within l (.separated (nested inner) (symbol .listSeparator)))
      (first ++ more.flatMap (symbol .listSeparator :: ·) ++
        maybe trailing [symbol .listSeparator]) (symbol .listEnd :: rest)
      (c.Ready δ good 0 maps) (c.Ready δ good 0 maps) := by
    refine separated_follows (P := c.Parsable) (fun vs => expect_follows rfl (Nat.zero_le 1)) ?_
      (nested_refuses hl ?_) (by simp) trailing hfirst hmore
    · intro u vs last hu _
      refine nested_follows hu hl ?_
      cases vs <;> cases last <;> simp [Closes, maybe]
    · simp [openers, alternatives]
  refine Follows.complete (f := fun _ => Draft.completeList) ?_
  exact (Follows.cons (expect_follows rfl (Nat.le_refl 1))
    (Follows.andThen hitems (expect_follows rfl (Nat.zero_le 1)).last)).congr (by simp)

theorem emptyList_follows (hl : c.Deep l (δ + 1)) :
    c.Follows δ good (c.within l (list inner)) [symbol .listStart, symbol .listEnd] rest
      (c.Ready δ good 1 maps) (c.Ready δ good 0 maps) := by
  have hitems : c.Follows δ good
      (c.within l (.separated (nested inner) (symbol .listSeparator))) [] (symbol .listEnd :: rest)
      (c.Ready δ good 0 maps) (c.Ready δ good 0 maps) :=
    Refuses.separated (nested_refuses hl (by simp [openers, alternatives]))
  refine Follows.complete (f := fun _ => Draft.completeList) ?_
  exact Follows.cons (expect_follows rfl (Nat.le_refl 1))
    (Follows.andThen hitems (expect_follows rfl (Nat.zero_le 1)).last)

/-- Where the entries of a map are read into a draft. The innermost map that is open
has the keys that the draft has. -/
def Ledger (c : Trial) (δ : Nat) (good : Prop) (maps : List (List String)) : Assertion :=
  fun o d => c.Ready δ good 1 (d.entryKeys :: maps) o d

/-- Where the key of an entry has been read. -/
def Keyed (c : Trial) (δ : Nat) (good : Prop) (maps : List (List String)) : Assertion :=
  fun o d => δ ≤ o ∧ o ≤ c.cx.source.size ∧ ∃ key span,
    d.keys.back? = some (key, span) ∧ (good ↔ c.cx.source.WellWorded key (d.entryKeys :: maps) o)

/-- Where the value of an entry is to be read. All is good if the key is new and the
rest is worded well below it. -/
def Defined (c : Trial) (δ : Nat) (good : Prop) (maps : List (List String)) : Assertion :=
  fun o d => δ ≤ o ∧ o ≤ c.cx.source.size ∧ ∃ key span last,
    d.keys.back? = some (key, span) ∧ (good ↔ key ∉ d.entryKeys ∧
      c.cx.source.WellWorded last ((d.entryKeys ++ [key]) :: maps) o)

theorem key_follows :
    c.Follows δ good (c.within l (.token identifier fun x => Draft.pushKey x.text x.span))
      [identifier] rest (c.Ledger δ good maps) (c.Keyed δ good maps) := by
  refine token_follows (fun _ => .modify _) ?_ fun _ _ _ h => nomatch h
  intro o x d d' hx hk hledger hpush
  obtain ⟨hδ, _, last, hgood⟩ := hledger
  cases hpush
  obtain ⟨hroom, hle⟩ := token_room (Nat.le_refl 1) hx hδ
  refine ⟨hroom, hle, x.text, x.span, by simp, hgood.trans ?_⟩
  exact wellWorded_iff_of_plain hx (by rw [hk]; rfl)

theorem define_follows :
    c.Follows δ good (c.within l (.mark .define)) [symbol .define] rest
      (c.Keyed δ good maps) (c.Defined δ good maps) := by
  refine token_follows (fun _ => .pure) ?_ fun _ _ _ h => nomatch h
  intro o x d d' hx hk hkeyed hpure
  obtain ⟨hδ, _, key, span, hkeys, hgood⟩ := hkeyed
  cases hpure
  obtain ⟨hroom, hle⟩ := token_room (Nat.zero_le 1) hx hδ
  refine ⟨hroom, hle, key, span, x.text, hkeys, hgood.trans ?_⟩
  rw [Source.wellWorded_iff hx, hk]
  simp [keysAfter]

/-- An entry is attached if its key is new, and then its key is the last one. -/
theorem attachEntry_eq_ok {d d' : Draft} {key : String} {span : Span} {n : Node}
    (h : d.keys.back? = some (key, span)) (hattach : Draft.attachEntry n d = .ok () d') :
    key ∉ d.entryKeys ∧ d'.entryKeys = d.entryKeys ++ [key] := by
  rw [Draft.attachEntry_eq n h] at hattach
  split at hattach
  · cases hattach
  · next hnew =>
      cases hattach
      exact ⟨hnew, by simp [Draft.entryKeys]⟩

theorem attachEntry_eq_error {d d' : Draft} {key : String} {span : Span} {n : Node}
    {e : ParseError} (h : d.keys.back? = some (key, span))
    (hattach : Draft.attachEntry n d = .error e d') : key ∈ d.entryKeys := by
  rw [Draft.attachEntry_eq n h] at hattach
  split at hattach
  · next hold => exact hold
  · cases hattach

theorem entryValue_follows (h : c.Parsable ws) (hl : c.Deep l (δ + 1)) (hr : Closes rest) :
    c.Follows δ good (c.within l (.child inner Draft.attachEntry)) ws rest
      (c.Defined δ good maps) (c.Ledger δ good maps) := by
  refine child_follows Draft.attachEntry_refusedFor (valueWithin_lawful _ _)
    (fun hnone hdef => ?_) fun {o d} hdef => ?_
  · obtain ⟨_, _, _⟩ := hdef
    have := c.roomy hnone
    omega
  · by_cases hnone : c.fork? = none
    · obtain ⟨hδ, hle, key, span, last, hkeys, hgood⟩ := hdef hnone
      refine ⟨c.cx.source.WellWorded last ((d.entryKeys ++ [key]) :: maps) o, fun stop =>
        c.Ready (δ + 1) (c.cx.source.WellWorded last ((d.entryKeys ++ [key]) :: maps) o) 0
          ((d.entryKeys ++ [key]) :: maps) stop .blank, (h hl hr).weaken ?_ id, fun _ =>
          ⟨fun hall => (hgood.1 hall).2, ?_, ?_⟩⟩
      · intro o' e _ hsame
        obtain ⟨rfl, rfl⟩ := hsame
        exact ⟨⟨by omega, hle, last, Iff.rfl⟩, rfl⟩
      · intro stop n d' hready hattach
        obtain ⟨hδ', hle', last', hinner⟩ := hready
        obtain ⟨hnew, hkeys'⟩ := attachEntry_eq_ok hkeys hattach
        refine ⟨by omega, hle', last', ?_⟩
        rw [hkeys', hgood, hinner]
        exact and_iff_right hnew
      · intro stop n e d' _ hattach hall
        exact (hgood.1 hall).1 (attachEntry_eq_error hkeys hattach)
    · -- where the parse is lost already, nothing has to be good
      have hinner : c.Follows (δ + 1) True (valueWithin c.cx l) ws rest
          (c.Fresh (δ + 1) True []) (c.Ready (δ + 1) True 0 []) := h hl hr
      exact ⟨True, fun _ => True, hinner.weaken (fun h => absurd h hnone) fun _ => trivial,
        fun h => absurd h hnone⟩

theorem entry_follows (h : c.Parsable ws) (hl : c.Deep l (δ + 1)) (hr : Closes rest) :
    c.Follows δ good (c.within l (Grammar.entry inner)) (Language.entry ws) rest
      (c.Ledger δ good maps) (c.Ledger δ good maps) := by
  have hvalue : c.Follows δ good (c.within l (.child inner Draft.attachEntry)) ws rest
      (c.Defined δ good maps) (c.Ledger δ good maps) := entryValue_follows h hl hr
  exact Follows.cons key_follows (Follows.cons define_follows hvalue.last)

theorem entry_refuses (h : ws.head? ≠ some .identifier) :
    c.Refuses δ good (c.within l (Grammar.entry inner)) ws A :=
  sequence_refuses (entry_honest ref_honest) h

/-- Words that begin with something that closes a value close it, and so does what
comes behind them if there are none. -/
theorem closes_flatten {us : List (List TokenKind)} (hus : ∀ u ∈ us, u ≠ [] ∧ Closes u)
    (hr : Closes rest) : Closes (us.flatten ++ rest) := by
  cases us with
  | nil => exact hr
  | cons u us =>
      obtain ⟨hne, hu⟩ := hus u (List.mem_cons_self ..)
      obtain ⟨k, ks, rfl⟩ := List.exists_cons_of_ne_nil hne
      exact hu

theorem entries_follow {values : List (List TokenKind)} (h : ∀ w ∈ values, c.Parsable w)
    (hl : c.Deep l (δ + 1)) (hr : Closes rest) (hr' : rest.head? ≠ some .identifier) :
    c.Follows δ good (c.within l (.many (Grammar.entry inner))) (values.flatMap Language.entry) rest
      (c.Ledger δ good maps) (c.Ledger δ good maps) := by
  rw [List.flatMap_def]
  refine many_follows (P := fun u => ∃ w, c.Parsable w ∧ u = Language.entry w) ?_ ?_
    (entry_refuses hr') ?_
  · intro _ hex
    obtain ⟨w, _, rfl⟩ := hex
    exact List.cons_ne_nil _ _
  · intro _ us hex hus
    obtain ⟨w, hw, rfl⟩ := hex
    refine entry_follows hw hl (closes_flatten (fun u hu => ?_) hr)
    obtain ⟨v, _, rfl⟩ := hus u hu
    exact ⟨List.cons_ne_nil _ _, by simp [Closes, Language.entry]⟩
  · intro u hu
    obtain ⟨w, hw, rfl⟩ := List.mem_map.1 hu
    exact ⟨w, h w hw, rfl⟩

theorem map_follows {values : List (List TokenKind)} (h : ∀ w ∈ values, c.Parsable w)
    (hl : c.Deep l (δ + 1)) :
    c.Follows δ good (c.within l (map inner))
      (symbol .mapStart :: values.flatMap Language.entry ++ [symbol .mapEnd]) rest
      (c.Fresh δ good maps) (c.Ready δ good 0 maps) := by
  have hstart : ∀ {vs}, c.Follows δ good (c.within l (.mark .mapStart)) [symbol .mapStart] vs
      (c.Fresh δ good maps) (c.Ledger δ good maps) := by
    refine fun {vs} => token_follows (fun _ => .pure) ?_ fun _ _ _ h => nomatch h
    intro o x d d' hx hk hready heq
    obtain ⟨⟨hδ, _, last, hgood⟩, rfl⟩ := hready
    cases heq
    obtain ⟨hroom, hle⟩ := token_room (Nat.le_refl 1) hx hδ
    refine ⟨by omega, hle, x.text, hgood.trans ?_⟩
    rw [Source.wellWorded_iff hx, hk]
    simp [keysAfter, Draft.entryKeys, Draft.blank]
  have hend : ∀ {vs}, c.Follows δ good (c.within l (.mark .mapEnd)) [symbol .mapEnd] vs
      (c.Ledger δ good maps) (c.Ready δ good 0 maps) := by
    refine fun {vs} => token_follows (fun _ => .pure) ?_ fun _ _ _ h => nomatch h
    intro o x d d' hx hk hready heq
    obtain ⟨hδ, _, last, hgood⟩ := hready
    cases heq
    obtain ⟨hroom, hle⟩ := token_room (Nat.le_refl 1) hx hδ
    refine ⟨hroom, hle, x.text, hgood.trans ?_⟩
    rw [Source.wellWorded_iff hx, hk]
    simp [keysAfter]
  refine Follows.complete (f := fun _ => Draft.completeMap) ?_
  exact Follows.cons hstart
    (Follows.andThen (entries_follow h hl (by simp [Closes]) (by simp)) hend.last)

/-! ## Functions -/

theorem signature_follows : c.Follows δ good (c.within l signature) edges rest
    (c.Ready δ good 0 maps) (c.Ready δ good 0 maps) :=
  Follows.cons (expect_follows rfl (Nat.zero_le 1))
    (Follows.cons (plain_follows rfl (fun _ => .modify _) (Nat.zero_le 1))
      (Follows.cons (plain_follows rfl (fun _ => .modify _) (Nat.zero_le 1))
        (expect_follows rfl (Nat.zero_le 1)).last))

theorem chain_of_isValue (h : IsValue (identifier :: ws)) : ∃ n, ws = dotted n := by
  generalize hks : (identifier :: ws : List TokenKind) = ks at h
  cases h with
  | chain n => exact ⟨n, (List.cons.inj hks).2⟩
  | function word => cases word <;> cases hks
  | typeAlias word => cases word <;> cases hks
  | typeIdentity word => cases word <;> cases hks
  | _ => cases hks

/-- What looks like a signature and is a value in front of another: the third token
tells at the latest, and what has been noted by then is taken back. -/
theorem signature_refuses_value {input : List TokenKind} (h : IsValue input) :
    c.Refuses δ good (c.within l signature)
      (symbol .typeParameterStart :: (input ++ symbol .listSeparator :: rest)) A := by
  have hhonest : (signature : Pattern Nonterminal).Honest (·.isFatal = true) := signature_honest
  refine ⟨within_lawful hhonest, fun {o s} hδ htrack _ => ?_⟩
  have hmark {vs : List TokenKind} : c.Follows δ good (c.within l (.mark .typeParameterStart))
      [symbol .typeParameterStart] vs (fun _ d => d = s.draft) fun _ d => d = s.draft :=
    token_follows (fun _ => .pure) (fun _ _ hd h => by cases h; exact hd) fun _ _ _ h => nomatch h
  have hname {vs : List TokenKind} : c.Follows δ good (c.within l (.token .identifier fun x =>
        modify fun d => { d with inType := some (.leaf x.text) }))
      [identifier] vs (fun _ d => d = s.draft) fun _ d => d.restore s.draft.mark = s.draft :=
    token_follows (fun _ => .modify _)
      (fun _ _ hd h => by cases h; subst hd; simp [Draft.restore, Draft.mark])
      fun _ _ _ h => nomatch h
  refine andThen_ends (hmark.ends hδ htrack fun _ => rfl) (within_lawful hhonest.2)
    (fun stop t hrun h => ?_) fun _ h => h.elim
  have hδ' := (depth_of_ok (within_lawful hhonest.1) hrun).trans hδ
  by_cases hid : (input ++ symbol .listSeparator :: rest).head? = some .identifier
  · obtain ⟨k, ks, rfl, _⟩ := exists_opener ‹IsValue input›
    obtain rfl : k = .identifier := by simpa using hid
    obtain ⟨n, rfl⟩ := chain_of_isValue ‹_›
    refine andThen_ends (hname.ends hδ' h.1 h.2.2) (within_lawful hhonest.2.2)
      (fun stop' u _ h' => ?_) fun _ h => h.elim
    refine andThen_ends (K := fun _ _ => False) (token_misses h'.1 ?_)
      (within_lawful hhonest.2.2.2) (fun _ _ _ h => h.elim) fun v hv hnone => ?_
    · cases n <;> simp [dotted, List.replicate_succ]
    · rw [hv]
      exact h'.2.2 hnone
  · refine andThen_ends (K := fun _ _ => False) (token_misses h.1 hid) (within_lawful hhonest.2.2)
      (fun _ _ _ h => h.elim) fun v hv hnone => ?_
    rw [hv, h.2.2 hnone, Draft.restore_mark]

theorem signature_refuses (h : ws.head? ≠ some (symbol .typeParameterStart)) :
    c.Refuses δ good (c.within l signature) ws A :=
  sequence_refuses signature_honest h

theorem typeParameter_of_isValue (h : IsValue (symbol .typeParameterStart :: ws)) :
    ∃ input more, IsValue input ∧ ws = input ++ symbol .listSeparator :: more := by
  generalize hks : (symbol .typeParameterStart :: ws : List TokenKind) = ks at h
  cases h with
  | @typeParameter input output target left _ _ =>
      refine ⟨input, output ++ symbol .typeParameterEnd :: target, left, ?_⟩
      simpa using (List.cons.inj hks).2
  | function word => cases word <;> cases hks
  | typeAlias word => cases word <;> cases hks
  | typeIdentity word => cases word <;> cases hks
  | _ => cases hks

/-- A signature refuses the values of a clause. -/
theorem signature_refuses_clause {clause : List (List TokenKind)} (h : ∀ w ∈ clause, IsValue w)
    (hr : rest.head? ≠ some (symbol .typeParameterStart)) :
    c.Refuses δ good (c.within l signature) (clause.flatten ++ rest) A := by
  cases clause with
  | nil => exact signature_refuses hr
  | cons w clause =>
      have hw := h w (List.mem_cons_self ..)
      obtain ⟨k, ks, rfl, _⟩ := exists_opener hw
      by_cases hk : k = symbol .typeParameterStart
      · subst hk
        obtain ⟨input, more, hinput, rfl⟩ := typeParameter_of_isValue hw
        have : c.Refuses δ good (c.within l signature) (symbol .typeParameterStart ::
            (input ++ symbol .listSeparator :: (more ++ (clause.flatten ++ rest)))) A :=
          signature_refuses_value hinput
        simpa using this
      · exact signature_refuses (by simpa using hk)

theorem closes_values {values : List (List TokenKind)} (h : ∀ w ∈ values, IsValue w)
    (hr : Closes rest) : Closes (values.flatten ++ rest) := by
  refine closes_flatten (fun u hu => ?_) hr
  obtain ⟨k, ks, rfl, hk⟩ := exists_opener (h u hu)
  refine ⟨List.cons_ne_nil _ _, ?_⟩
  intro heq
  cases heq
  exact absurd hk (by decide)

/-- Values that are read wherever they stand. -/
def Clause (c : Trial) (values : List (List TokenKind)) : Prop :=
  ∀ w ∈ values, IsValue w ∧ c.Parsable w

theorem clause_follows {values : List (List TokenKind)} (h : c.Clause values)
    (hl : c.Deep l (δ + 1)) (hr : Closes rest) (hr' : ∀ k ∈ openers, rest.head? ≠ some k) :
    c.Follows δ good (c.within l (clause inner)) values.flatten rest (c.Ready δ good 0 maps)
      (c.Ready δ good 0 maps) := by
  refine Follows.complete (f := fun before d => d.reverseChildrenFrom before.children.size) ?_
  refine many_follows (P := fun w => IsValue w ∧ c.Parsable w) ?_ ?_ (nested_refuses hl hr') h
  · intro _ hand
    obtain ⟨hw, _⟩ := hand
    obtain ⟨_, _, rfl, _⟩ := exists_opener hw
    exact List.cons_ne_nil _ _
  · intro w ws hand hws
    obtain ⟨_, hw⟩ := hand
    exact nested_follows hw hl (closes_values (fun v hv => (hws v hv).1) hr)

theorem clauses_follow {more : List (List (List TokenKind))} (h : ∀ v ∈ more, c.Clause v)
    (hl : c.Deep l (δ + 1)) :
    c.Follows δ good
      (c.within l (.many (.sequence [.mark .clauseSeparator, clause inner])))
      (more.flatMap (symbol .clauseSeparator :: ·.flatten)) (symbol .functionEnd :: rest)
      (c.Ready δ good 0 maps) (c.Ready δ good 0 maps) := by
  have hhonest : (.sequence [.mark .clauseSeparator, clause inner] :
      Pattern Nonterminal).Honest (·.isFatal = true) :=
    ⟨Pattern.expect_honest _, clause_honest ref_honest, trivial⟩
  rw [List.flatMap_def]
  refine many_follows
    (P := fun u => ∃ v, c.Clause v ∧ u = symbol .clauseSeparator :: v.flatten) ?_ ?_
    (sequence_refuses hhonest (by simp)) ?_
  · intro _ hex
    obtain ⟨v, _, rfl⟩ := hex
    exact List.cons_ne_nil _ _
  · intro _ us hex hus
    obtain ⟨v, hv, rfl⟩ := hex
    have hnext : ∀ k ∈ symbol .identifierSeparator :: openers,
        (us.flatten ++ symbol .functionEnd :: rest).head? ≠ some k := by
      cases us with
      | nil => simp [openers, alternatives]
      | cons u us =>
          obtain ⟨_, _, rfl⟩ := hus u (List.mem_cons_self ..)
          simp [openers, alternatives]
    rw [List.forall_mem_cons] at hnext
    exact Follows.cons (expect_follows rfl (Nat.zero_le 1))
      (clause_follows hv hl hnext.1 hnext.2).last
  · intro u hu
    obtain ⟨v, hv, rfl⟩ := List.mem_map.1 hu
    exact ⟨v, h v hv, rfl⟩

theorem function_follows {first : List (List TokenKind)} {more : List (List (List TokenKind))}
    (word signed : Bool) (hl : c.Deep l (δ + 1)) (hfirst : c.Clause first)
    (hmore : ∀ v ∈ more, c.Clause v) :
    c.Follows δ good (c.within l (function inner))
      (maybe word [keyword .fnWord] ++ [symbol .functionStart] ++ maybe signed edges ++
        first.flatten ++ more.flatMap (symbol .clauseSeparator :: ·.flatten) ++
        [symbol .functionEnd]) rest
      (c.Ready δ good 1 maps) (c.Ready δ good 0 maps) := by
  have hword {vs : List TokenKind} : c.Follows δ good (c.within l (.optional (.word .fnWord)))
      (maybe word [keyword .fnWord]) (symbol .functionStart :: vs) (c.Ready δ good 1 maps)
      (c.Ready δ good 1 maps) := by
    cases word with
    | true =>
        exact (Follows.optional (expect_follows rfl (Nat.le_refl 1))).weaken (fun _ => id)
          fun h => ⟨by have := h.1; omega, h.2⟩
    | false => exact Refuses.optional (expect_refuses (by simp))
  have hnext : ∀ k ∈ symbol .identifierSeparator :: openers,
      (more.flatMap (symbol .clauseSeparator :: ·.flatten) ++ symbol .functionEnd :: rest).head? ≠
        some k := by
    cases more <;> simp [openers, alternatives]
  rw [List.forall_mem_cons] at hnext
  have hsigned : c.Follows δ good (c.within l (.optional signature)) (maybe signed edges)
      (first.flatten ++ (more.flatMap (symbol .clauseSeparator :: ·.flatten) ++
        symbol .functionEnd :: rest)) (c.Ready δ good 0 maps) (c.Ready δ good 0 maps) := by
    cases signed with
    | true => exact Follows.optional signature_follows
    | false =>
        exact Refuses.optional (signature_refuses_clause (fun w hw => (hfirst w hw).1)
          (hnext.2 _ (by decide)))
  have hhead : c.Follows δ good (c.within l (clause inner)) first.flatten
      (more.flatMap (symbol .clauseSeparator :: ·.flatten) ++ symbol .functionEnd :: rest)
      (c.Ready δ good 0 maps) (c.Ready δ good 0 maps) :=
    clause_follows hfirst hl hnext.1 hnext.2
  have hmore : c.Follows δ good
      (c.within l (.many (.sequence [.mark .clauseSeparator, clause inner])))
      (more.flatMap (symbol .clauseSeparator :: ·.flatten)) (symbol .functionEnd :: rest)
      (c.Ready δ good 0 maps) (c.Ready δ good 0 maps) :=
    clauses_follow hmore hl
  have hend : c.Follows δ good (c.within l (.mark .functionEnd)) [symbol .functionEnd] rest
      (c.Ready δ good 0 maps) (c.Ready δ good 0 maps) :=
    expect_follows rfl (Nat.zero_le 1)
  refine Follows.complete (f := fun _ => Draft.completeFunction) ?_
  have hinside := Follows.andThen (hsigned.leaving (by simp))
    (Follows.andThen (hhead.leaving (by simp)) (hmore.andThen hend.last))
  exact (hword.andThen (Follows.cons (expect_follows rfl (Nat.le_refl 1)) hinside)).congr (by simp)

/-! ## Type annotations -/

theorem typeParameter_follows {input output target : List TokenKind} (hl : c.Deep l (δ + 1))
    (hinput : c.Parsable input) (houtput : c.Parsable output) (htarget : c.Parsable target)
    (hr : Closes rest) :
    c.Follows δ good (c.within l (typeParameter inner))
      (symbol .typeParameterStart :: input ++ symbol .listSeparator :: output ++
        symbol .typeParameterEnd :: target) rest
      (c.Ready δ good 1 maps) (c.Ready δ good 0 maps) := by
  have hmark {vs : List TokenKind} (m : Symbol) (hm : isPlain (symbol m) = true) :
      c.Follows δ good (c.within l (.mark m)) [symbol m] vs (c.Ready δ good 0 maps)
        (c.Ready δ good 0 maps) :=
    expect_follows hm (Nat.zero_le 1)
  refine Follows.complete (f := fun _ => Draft.completeTypeParameter) ?_
  have htarget : c.Follows δ good (c.within l (nested inner)) target rest
      (c.Ready δ good 0 maps) (c.Ready δ good 0 maps) :=
    nested_follows htarget hl hr
  have houtput : c.Follows δ good (c.within l (nested inner)) output
      (symbol .typeParameterEnd :: (target ++ rest)) (c.Ready δ good 0 maps)
      (c.Ready δ good 0 maps) :=
    nested_follows houtput hl (by simp [Closes])
  have hinput : c.Follows δ good (c.within l (nested inner)) input
      (symbol .listSeparator :: (output ++ symbol .typeParameterEnd :: (target ++ rest)))
      (c.Ready δ good 0 maps) (c.Ready δ good 0 maps) :=
    nested_follows hinput hl (by simp [Closes])
  have hright := Follows.cons (hmark .typeParameterEnd rfl) htarget.last
  have hleft := Follows.cons (hmark .listSeparator rfl)
    (Follows.andThen (houtput.leaving (by simp)) hright)
  have hinside := Follows.andThen (hinput.leaving (by simp)) hleft
  exact (Follows.cons (expect_follows rfl (Nat.le_refl 1)) hinside).congr (by simp)

theorem wrapped_follows {m : Symbol} {w : Keyword} (word : Bool) (hm : isPlain (symbol m) = true)
    (hl : c.Deep l (δ + 1)) (h : c.Parsable ws) (hr : Closes rest) :
    c.Follows δ good (c.within l (wrapped inner m w))
      ((if word then keyword w else symbol m) :: ws) rest
      (c.Ready δ good 1 maps) (c.Ready δ good 0 maps) := by
  refine Follows.cons ?_ (nested_follows h hl hr).last
  cases word with
  | true =>
      exact Refuses.orElse_follows (expect_refuses (by simp))
        (Follows.orElse (expect_follows rfl (Nat.le_refl 1)) (.inr rfl))
  | false =>
      exact Follows.orElse (expect_follows hm (Nat.le_refl 1))
        (.inl (Matcher.orElse_never_lawful (within_lawful (Pattern.expect_honest _))))

theorem typeAlias_follows (word : Bool) (hl : c.Deep l (δ + 1)) (h : c.Parsable ws)
    (hr : Closes rest) :
    c.Follows δ good (c.within l (typeAlias inner))
      ((if word then keyword .aliasWord else symbol .typeAlias) :: ws) rest
      (c.Ready δ good 1 maps) (c.Ready δ good 0 maps) :=
  Follows.complete (f := fun _ => Draft.completeTypeAlias) (wrapped_follows word rfl hl h hr)

theorem typeIdentity_follows (word : Bool) (hl : c.Deep l (δ + 1)) (h : c.Parsable ws)
    (hr : Closes rest) :
    c.Follows δ good (c.within l (typeIdentity inner))
      ((if word then keyword .identityWord else symbol .typeIdentity) :: ws) rest
      (c.Ready δ good 1 maps) (c.Ready δ good 0 maps) :=
  Follows.complete (f := fun _ => Draft.completeTypeIdentity) (wrapped_follows word rfl hl h hr)

/-! ## Any value -/

/-- What one of the alternatives reads is read as a value. -/
theorem parsable_of_alternative {p : Pattern Nonterminal} {k : TokenKind}
    (halt : ∃ a ∈ alternatives, a.2 = p ∧ k ∈ a.1) (hhead : ws.head? = some k)
    (h : ∀ {l δ good maps rest}, c.Deep l (δ + 1) → Closes rest →
      c.Follows δ good (c.within l p) ws rest (c.Fresh δ good maps) (c.Ready δ good 0 maps)) :
    c.Parsable ws :=
  fun hl hr => valueWithin_follows hl fun _ hl' => alternative_follows halt hhead (h hl' hr)

theorem Follows.fresh {p : Matcher}
    (h : c.Follows δ good p ws rest (c.Ready δ good 1 maps) B) :
    c.Follows δ good p ws rest (c.Fresh δ good maps) B :=
  h.weaken (fun _ => And.left) id

/-- Whatever is a value is read as one. -/
theorem value_follows (h : IsValue ws) : c.Parsable ws := by
  induction h with
  | discard => exact parsable_of_alternative (by simp [alternatives]) rfl fun _ _ =>
      discard_follows.fresh
  | integer => exact parsable_of_alternative (by simp [alternatives]) rfl fun _ _ =>
      integer_follows.fresh
  | string => exact parsable_of_alternative (by simp [alternatives]) rfl fun _ _ =>
      string_follows.fresh
  | chain n => exact parsable_of_alternative (by simp [alternatives]) rfl fun _ hr =>
      (identifierChain_follows n hr).fresh
  | emptyList => exact parsable_of_alternative (by simp [alternatives]) rfl fun hl _ =>
      (emptyList_follows hl).fresh
  | list trailing _ _ hfirst hmore =>
      exact parsable_of_alternative (by simp [alternatives]) rfl fun hl _ =>
        (list_follows trailing hl hfirst hmore).fresh
  | map _ hvalues =>
      exact parsable_of_alternative (by simp [alternatives]) rfl fun hl _ => map_follows hvalues hl
  | function word signed head tail hhead htail =>
      refine parsable_of_alternative (k := if word then keyword .fnWord else symbol .functionStart)
        ?_ ?_ fun hl _ => (function_follows word signed hl (fun w hw => ⟨head w hw, hhead w hw⟩)
          fun v hv w hw => ⟨tail v hv w hw, htail v hv w hw⟩).fresh
      · cases word <;> simp [alternatives]
      · cases word <;> rfl
  | typeParameter _ _ _ hinput houtput htarget =>
      exact parsable_of_alternative (by simp [alternatives]) rfl fun hl hr =>
        (typeParameter_follows hl hinput houtput htarget hr).fresh
  | typeAlias word _ htarget =>
      refine parsable_of_alternative ?_ rfl fun hl hr =>
        (typeAlias_follows word hl htarget hr).fresh
      cases word <;> simp [alternatives]
  | typeIdentity word _ htarget =>
      refine parsable_of_alternative ?_ rfl fun hl hr =>
        (typeIdentity_follows word hl htarget hr).fresh
      cases word <;> simp [alternatives]

/-! ## Whole sources -/

theorem useStatement_follows (n : Nat) (hr : Closes rest) :
    c.Follows δ good (c.within l useStatement) (keyword .useWord :: chain n) rest
      (c.Ledger δ good maps) (c.Ledger δ good maps) := by
  have hword : c.Follows δ good (c.within l (.word .useWord)) [keyword .useWord] (chain n ++ rest)
      (c.Ledger δ good maps) fun o d => c.Ready δ good 0 (d.entryKeys :: maps) o d := by
    refine token_follows (fun _ => .pure) ?_ fun _ _ _ h => nomatch h
    intro o x d d' hx hk hready' heq
    obtain ⟨hδ, _, last, hgood⟩ := hready'
    cases heq
    obtain ⟨hroom, hle⟩ := token_room (Nat.le_refl 1) hx hδ
    exact ⟨hroom, hle, x.text, hgood.trans (wellWorded_iff_of_plain hx (by rw [hk]; rfl))⟩
  have hchain : c.Follows δ good (c.within l (.child identifierChain Draft.attachUsing)) (chain n)
      rest (fun o d => c.Ready δ good 0 (d.entryKeys :: maps) o d) (c.Ledger δ good maps) := by
    refine child_follows Draft.attachUsing_refusedFor (within_lawful identifierChain_honest)
      room_of_ready fun {o d} hready => ⟨good, fun stop =>
        c.Ready (δ + 1) good 0 (d.entryKeys :: maps) stop .blank,
        (identifierChain_follows n hr).weaken ?_ id, fun _ => ⟨id, ?_, fun _ h => ?_⟩⟩
    · intro o' e hnone hsame
      obtain ⟨rfl, rfl⟩ := hsame
      obtain ⟨hδ, hrest⟩ := hready hnone
      exact ⟨by omega, hrest⟩
    · intro stop n d' hready' hattach
      obtain ⟨hδ, hrest⟩ := hready'
      refine ⟨by omega, ?_⟩
      rwa [Draft.entryKeys_of_attachUsing hattach]
    · exact (Draft.attachUsing_refusedFor (E := fun _ => False) _ _ _ _ h).elim
  exact Follows.cons hword hchain.last

theorem useStatement_refuses (h : ws.head? ≠ some (keyword .useWord)) :
    c.Refuses δ good (c.within l useStatement) ws A :=
  sequence_refuses useStatement_honest h

/-- What is asserted of a parse at its start. -/
def Started (c : Trial) (good : Prop) : Assertion := fun o d =>
  o = 0 ∧ d = .blank ∧ (good ↔ c.cx.source.WellWorded "" [[]] 0)

theorem module_follows {uses : List Nat} {values : List (List TokenKind)}
    (h : ∀ v ∈ values, IsValue v) (hl : c.Deep l 2) :
    c.Follows 1 good (c.within l («module» inner))
      (uses.flatMap (keyword .useWord :: chain ·) ++ values.flatMap Language.entry) []
      (c.Started good) fun _ _ => good := by
  have huses : c.Follows 1 good (c.within l (.many useStatement))
      (uses.flatMap (keyword .useWord :: chain ·)) (values.flatMap Language.entry)
      (c.Started good) (c.Ledger 1 good []) := by
    rw [List.flatMap_def]
    have hclosed : Closes (values.flatMap Language.entry) := by
      cases values <;> simp [Closes, Language.entry]
    refine (many_follows (P := fun u => ∃ n, u = keyword .useWord :: chain n) ?_ ?_
      (useStatement_refuses ?_) ?_).weaken (A := c.Ledger 1 good []) ?_ id
    · intro _ hex
      obtain ⟨n, rfl⟩ := hex
      exact List.cons_ne_nil _ _
    · intro _ us hex hus
      obtain ⟨n, rfl⟩ := hex
      refine useStatement_follows n (closes_flatten (fun u hu => ?_) hclosed)
      obtain ⟨_, rfl⟩ := hus u hu
      exact ⟨List.cons_ne_nil _ _, by simp [Closes]⟩
    · cases values <;> simp [Language.entry]
    · intro u hu
      obtain ⟨n, _, rfl⟩ := List.mem_map.1 hu
      exact ⟨n, rfl⟩
    · intro o d _ hand
      obtain ⟨rfl, rfl, hgood⟩ := hand
      exact ⟨Nat.le_refl _, Nat.zero_le _, "", hgood⟩
  have hentries : c.Follows 1 good (c.within l (.many (Grammar.entry inner)))
      (values.flatMap Language.entry) [] (c.Ledger 1 good []) (c.Ledger 1 good []) :=
    entries_follow (fun w hw => value_follows (h w hw)) hl (by simp [Closes]) (by simp)
  have hend : c.Follows 1 good (c.within l .endOfInput) [] [] (c.Ledger 1 good [])
      fun _ _ => good := by
    refine endOfInput_follows fun hs hledger => ?_
    obtain ⟨_, _, _, hgood⟩ := hledger
    exact hgood.2 (Source.wellWorded_of_isSpent hs)
  have hall := (huses.leaving (by simp)).andThen (hentries.andThen hend.last)
  show c.Follows 1 good (Matcher.andEdit _ fun _ => modify Draft.completeModule) _ _ _ _
  exact (hall.congr (by simp)).andEdit (fun _ _ => ⟨_, rfl⟩) fun hgood _ => hgood

theorem soleValue_follows (h : IsValue ws) (hl : c.Deep (l + 1) 1) :
    c.Follows 1 good (c.within l (soleValue inner)) ws [] (c.Started good) fun _ _ => good := by
  have hvalue : c.Follows 1 good (c.within l (value inner)) ws []
      (c.Fresh 1 good [[]]) (c.Ready 1 good 0 [[]]) :=
    value_follows h (l := l + 1) hl (by simp [Closes])
  have hend : c.Follows 1 good (c.within l (.ahead .endOfInput)) [] [] (c.Ready 1 good 0 [[]])
      fun _ _ => good := by
    refine ahead_endOfInput_follows fun hs hready => ?_
    obtain ⟨_, _, _, hgood⟩ := hready
    exact hgood.2 (Source.wellWorded_of_isSpent hs)
  refine Follows.weaken (A := c.Fresh 1 good [[]]) ?_ ?_ id
  · exact (hvalue.andThen hend.last).congr (by simp)
  · intro o d _ hand
    obtain ⟨rfl, rfl, hgood⟩ := hand
    exact ⟨⟨Nat.le_refl _, Nat.zero_le _, "", hgood⟩, rfl⟩

/-- A sentence is read as the goal says. -/
theorem goal_follows {goal : Goal} (h : Sentence goal ws) :
    c.Follows 1 good (goal.matcher c.cx) ws [] (c.Started good) fun _ _ => good := by
  cases goal with
  | module =>
      obtain ⟨uses, values, hvalues, rfl⟩ := h
      exact module_follows hvalues fun _ => by omega
  | value => exact soleValue_follows h fun _ => by omega

theorem tracks_of_reads {xs : List Lexeme} (h : c.cx.source.Reads o xs) :
    c.Tracks o (xs.map Lexeme.kind) := by
  induction xs generalizing o with
  | nil => exact .spent (Source.Reads.nil_iff.1 h)
  | cons x xs ih =>
      obtain ⟨hx, hxs⟩ := Source.Reads.cons_iff.1 h
      exact .token hx (ih hxs)

/-- Where the limits are no hindrance and there is no fork, a matcher that follows
what is there matches if all is good, and all is good if it matches. -/
theorem Follows.good_iff {p : Matcher} {s : State}
    (h : c.Follows δ good p ws rest A fun _ _ => good) (hnone : c.fork? = none)
    (hδ : s.progress.depth = δ) (htrack : c.Tracks o (ws ++ rest)) (hbook : A o s.draft) :
    (∃ stop t, p o s = .ok stop t) ↔ good := by
  have hends := h.ends hδ htrack fun _ => hbook
  generalize p o s = out at hends
  cases hends with
  | ok h => exact iff_of_true ⟨_, _, rfl⟩ (h.2.2 hnone)
  | miss h => exact h.elim
  | lost h => exact absurd hnone h.fork
  | known h => exact absurd hnone (Known.lost (o := o) h).fork
  | fatal h => exact iff_of_false (fun ⟨_, _, h⟩ => nomatch h) (h hnone)

end Trial

/-! ## The end of a parse -/

/-- A matcher that leaves nothing but blanks. -/
def Matcher.Exhausts (cx : Context) (p : Matcher) : Prop :=
  ∀ o s stop t, p o s = .ok stop t → cx.source.isSpent stop = true

namespace Matcher

variable {cx : Context} {p q : Matcher}

theorem isSpent_of_endOfInput {o stop : Nat} {s t : State}
    (h : endOfInput cx o s = .ok stop t) :
    cx.source.isSpent o = true ∧ stop = cx.source.skipBlanks o := by
  rw [endOfInput_eq] at h
  split at h
  · next hend =>
      cases h
      exact ⟨hend, rfl⟩
  · cases h

theorem endOfInput_exhausts (cx : Context) : Exhausts cx (endOfInput cx) := by
  intro o s stop t h
  obtain ⟨hend, rfl⟩ := isSpent_of_endOfInput h
  simpa [Source.isSpent, Source.skipBlanks_idem] using hend

theorem ahead_endOfInput_exhausts (cx : Context) : Exhausts cx (ahead (endOfInput cx)) := by
  intro o s stop t h
  rw [ahead] at h
  cases hend : endOfInput cx o s with
  | ok stop' u =>
      rw [hend] at h
      cases h
      exact (isSpent_of_endOfInput hend).1
  | error f u =>
      rw [hend] at h
      cases h

theorem andThen_exhausts (hq : Exhausts cx q) : Exhausts cx (andThen p q) := by
  intro o s stop t h
  rw [andThen] at h
  split at h
  · cases h
  · split at h
    · cases h
    · next hrun =>
        cases h
        exact hq _ _ _ _ hrun

theorem andThen_done_exhausts (hp : Exhausts cx p) : Exhausts cx (andThen p done) := by
  intro o s stop t h
  rw [andThen] at h
  split at h
  · cases h
  · next hrun =>
      cases h
      exact hp _ _ _ _ hrun

theorem andEdit_exhausts (hp : Exhausts cx p) (edit : Draft → Edit) :
    Exhausts cx (andEdit p edit) := by
  intro o s stop t h
  rw [andEdit] at h
  split at h
  · next hrun =>
      obtain rfl := State.stop_of_settle h
      exact hp _ _ _ _ hrun
  · cases h

end Matcher

theorem Goal.matcher_exhausts (goal : Goal) (cx : Context) :
    Matcher.Exhausts cx (goal.matcher cx) := by
  cases goal with
  | module =>
      have hend := Matcher.andThen_done_exhausts (Matcher.endOfInput_exhausts cx)
      exact Matcher.andEdit_exhausts (Matcher.andThen_exhausts (Matcher.andThen_exhausts hend))
        fun _ => modify Draft.completeModule
  | value =>
      have hend := Matcher.andThen_done_exhausts (Matcher.ahead_endOfInput_exhausts cx)
      exact Matcher.andThen_exhausts hend

/-- What the matcher of a goal matches are all the tokens of a source, and they are
a sentence. -/
theorem Goal.reads_of_matcher {goal : Goal} {cx : Context} {s t : State} {stop : Nat}
    (h : goal.matcher cx 0 s = .ok stop t) :
    ∃ xs, cx.source.Reads 0 xs ∧ Language.Sentence goal (xs.map Lexeme.kind) := by
  obtain ⟨xs, ⟨o, hpath, ho⟩, hsentence⟩ := (goal.matcher_within cx).reads h
  have hspent := goal.matcher_exhausts cx _ _ _ _ h
  refine ⟨xs, ⟨o, hpath, ?_⟩, hsentence⟩
  simpa [Source.isSpent, ho] using hspent

/-! ## The theorem -/

theorem Parse.isOk_outcome {goal : Goal} {cx : Context} (h : 0 < cx.limits.maxDepth) :
    (∃ r p, Parse.outcome goal cx = .ok r p) ↔
      ∃ stop t, goal.matcher cx 0 ⟨.blank, Progress.none.deeper⟩ = .ok stop t := by
  rw [outcome_of_room h]
  cases goal.matcher cx 0 ⟨.blank, Progress.none.deeper⟩ <;> simp

theorem parse_eq_ok_iff {goal : Goal} {s : Source} {l : Limits} :
    (∃ p, parse goal s l = .ok p) ↔ ∃ r p, Parse.outcome goal ⟨s, l⟩ = .ok r p := by
  simp [parse_eq_ok]

/-- A source is read as a goal says if and only if it can be cut into tokens, their
kinds make up a sentence, its numerals fit and the keys of its maps are distinct:
as long as the limits do not get in the way. -/
theorem parse_ok_iff {goal : Goal} {s : Source} {l : Limits} (hsteps : l.maxSteps = none)
    (hdepth : s.size + 2 ≤ l.maxDepth) :
    (∃ p, parse goal s l = .ok p) ↔
      ∃ ts, tokenize s = .ok ts ∧ Language.Sentence goal (ts.map Token.kind) ∧
        (∀ t ∈ ts, t.kind = .integer → Numeral.Fits t.text) ∧
          DistinctKeys "" [[]] (ts.map Token.lexeme) := by
  let c : Trial :=
    { cx := ⟨s, l⟩, fork? := none, unlimited := fun _ => hsteps, roomy := fun _ => hdepth }
  have hiff {xs : List Lexeme} (hreads : s.Reads 0 xs)
      (hsentence : Language.Sentence goal (xs.map Lexeme.kind)) :
      (∃ p, parse goal s l = .ok p) ↔ WellWorded "" [[]] xs := by
    have hgood : s.WellWorded "" [[]] 0 ↔ WellWorded "" [[]] xs :=
      ⟨fun ⟨_, h, hall⟩ => hreads.unique h ▸ hall, fun hall => ⟨xs, hreads, hall⟩⟩
    rw [← hgood, parse_eq_ok_iff, Parse.isOk_outcome (by simp only; omega)]
    refine (c.goal_follows hsentence).good_iff rfl rfl ?_ ⟨rfl, rfl, Iff.rfl⟩
    rw [List.append_nil]
    exact c.tracks_of_reads hreads
  constructor
  · intro h
    obtain ⟨stop, t, hrun⟩ := (Parse.isOk_outcome (by simp only; omega)).1 (parse_eq_ok_iff.1 h)
    obtain ⟨xs, hreads, hsentence⟩ := goal.reads_of_matcher hrun
    obtain ⟨ts, htokens, rfl⟩ := exists_tokenize_of_reads hreads
    obtain ⟨hfits, hkeys⟩ := (hiff hreads hsentence).1 h
    refine ⟨ts, htokens, by simpa [Token.lexeme, Function.comp_def] using hsentence, ?_, hkeys⟩
    simpa [Token.lexeme] using hfits
  · intro hex
    obtain ⟨ts, htokens, hsentence, hfits, hkeys⟩ := hex
    refine (hiff (tokenize_eq_ok.1 htokens).2 ?_).2 ⟨?_, hkeys⟩
    · simpa [Token.lexeme, Function.comp_def] using hsentence
    · simpa [Token.lexeme] using hfits

open TokenKind in
/-- A module with one entry is read. -/
theorem parse_ok_iff_entry :
    Limits.standard.maxSteps = none ∧ Source.size ⟨"a: 1"⟩ + 2 ≤ Limits.standard.maxDepth ∧
      ∃ p, parse .module ⟨"a: 1"⟩ = .ok p := by
  have hsize : Source.size ⟨"a: 1"⟩ + 2 ≤ Limits.standard.maxDepth := by decide
  have htokens : tokenize ⟨"a: 1"⟩ = .ok
      [⟨identifier, "a", ⟨0, 1⟩, ⟨1, 1⟩⟩, ⟨symbol .define, ":", ⟨1, 2⟩, ⟨1, 2⟩⟩,
        ⟨integer, "1", ⟨3, 4⟩, ⟨1, 4⟩⟩] := by
    cbv
  have hsentence : Language.Sentence .module [identifier, symbol .define, integer] :=
    ⟨[], [[integer]], by simp [Language.IsValue.integer], rfl⟩
  have hfits : Numeral.Fits "1" :=
    Numeral.exists_value_iff.1 ⟨1, by cbv⟩
  refine ⟨rfl, hsize, (parse_ok_iff rfl hsize).2 ⟨_, htokens, hsentence, ?_, ?_⟩⟩
  · simpa using hfits
  · simp [Token.lexeme, DistinctKeys, keysAfter]

end WeLang
