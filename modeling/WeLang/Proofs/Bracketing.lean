import WeLang.Proofs.Choice

/-!
# Where a value ends

No value is the beginning of another, but for chains of names, which go on with a dot. That
can be told from brackets. A value closes all brackets that it opens, and what can be the
last token of a value stands between brackets in it, unless it is the last one or a dot
comes behind it (`Language.Whole`). So a reader who counts brackets knows when a value is
over, and so does a parser, which does not count them: where it has read a value, there is
nothing more to be expected of it but a dot (`Language.IsValue.next`).
-/

namespace WeLang

namespace Language

open TokenKind WeLang.Symbol

variable {k o c : TokenKind} {u v w : List TokenKind}

/-! ## Counting brackets -/

/-- How a token changes the number of open brackets. -/
def step : TokenKind → Int
  | symbol listStart | symbol mapStart | symbol functionStart | symbol typeParameterStart => 1
  | symbol listEnd | symbol mapEnd | symbol functionEnd | symbol typeParameterEnd => -1
  | _ => 0

/-- How many brackets are opened and not closed again. -/
def depth (w : List TokenKind) : Int :=
  (w.map step).sum

@[simp] theorem depth_nil : depth [] = 0 := rfl

@[simp] theorem depth_cons (k : TokenKind) (w : List TokenKind) :
    depth (k :: w) = step k + depth w := by
  simp [depth]

@[simp] theorem depth_append (v w : List TokenKind) : depth (v ++ w) = depth v + depth w := by
  simp [depth]

/-- Tokens that close all brackets that they open, and no others. -/
structure Balanced (w : List TokenKind) : Prop where
  total : depth w = 0
  nonneg : ∀ u v, w = u ++ v → 0 ≤ depth u

theorem balanced_nil : Balanced [] := by
  refine ⟨rfl, fun u v h => ?_⟩
  rw [(List.append_eq_nil_iff.1 h.symm).1, depth_nil]

theorem Balanced.append (hv : Balanced v) (hw : Balanced w) : Balanced (v ++ w) := by
  refine ⟨by rw [depth_append, hv.total, hw.total]; rfl, fun a b h => ?_⟩
  rcases List.append_eq_append_iff.1 h with ⟨z, rfl, hz⟩ | ⟨z, hz, -⟩
  · have := hw.nonneg z b hz
    rw [depth_append, hv.total]
    omega
  · exact hv.nonneg a z hz

theorem balanced_singleton (hk : step k = 0) : Balanced [k] := by
  refine ⟨by simp [hk], fun u v h => ?_⟩
  rcases List.append_eq_cons_iff.1 h.symm with ⟨rfl, -⟩ | ⟨z, rfl, hz⟩
  · exact Int.le_refl 0
  · simp [(List.append_eq_nil_iff.1 hz.symm).1, hk]

theorem Balanced.cons (hw : Balanced w) (hk : step k = 0) : Balanced (k :: w) :=
  (balanced_singleton hk).append hw

theorem balanced_flatMap {α : Type} {xs : List α} {f : α → List TokenKind}
    (h : ∀ x ∈ xs, Balanced (f x)) : Balanced (xs.flatMap f) := by
  induction xs with
  | nil => exact balanced_nil
  | cons x xs ih =>
      rw [List.forall_mem_cons] at h
      exact (h.1).append (ih h.2)

theorem balanced_maybe (there : Bool) (hw : Balanced w) : Balanced (maybe there w) := by
  cases there with
  | false => exact balanced_nil
  | true => exact hw

/-! ## What is over and what is not -/

/-- The kinds of tokens that a value may end with. -/
def finishes : TokenKind → Bool
  | symbol listEnd | symbol mapEnd | symbol functionEnd | symbol Symbol.discard => true
  | integer | identifier | string => true
  | _ => false

/-- Tokens that are over with the last of them and not before: where they might be over
before, brackets are open, or a dot comes next. -/
structure Whole (w : List TokenKind) : Prop where
  total : depth w = 0
  inside : ∀ u k x v, w = u ++ k :: x :: v → 0 ≤ depth (u ++ [k]) ∧
    (depth (u ++ [k]) = 0 → finishes k = true → x = symbol identifierSeparator)
  last : ∃ u k, w = u ++ [k] ∧ finishes k = true

theorem Whole.balanced (h : Whole w) : Balanced w := by
  refine ⟨h.total, fun u v heq => ?_⟩
  rcases List.eq_nil_or_concat' u with rfl | ⟨u, k, rfl⟩
  · exact Int.le_refl 0
  · cases v with
    | nil =>
        rw [List.append_nil] at heq
        rw [← heq, h.total]
    | cons x v => exact (h.inside u k x v (by simpa using heq)).1

theorem whole_singleton (hk : step k = 0) (hfinish : finishes k = true) : Whole [k] := by
  refine ⟨by simp [hk], fun u j x v h => ?_, [], k, rfl, hfinish⟩
  have := congrArg List.length h
  simp only [List.length_append, List.length_cons, List.length_nil] at this
  omega

/-- What stands before a whole and neither opens a bracket nor could be the end. -/
theorem Whole.cons (h : Whole w) (ho : step o = 0) (hfinish : finishes o = false) :
    Whole (o :: w) := by
  obtain ⟨htotal, hinside, u, k, rfl, hk⟩ := h
  refine ⟨by simp only [depth_cons, ho, htotal]; rfl, fun a j x b heq => ?_, o :: u, k, rfl, hk⟩
  rcases List.append_eq_cons_iff.1 heq.symm with ⟨rfl, hb⟩ | ⟨a, rfl, ha⟩
  · obtain ⟨rfl, -⟩ := List.cons.inj hb
    simp [ho, hfinish]
  · have := hinside a j x b ha
    simpa only [List.cons_append, depth_cons, ho, Int.zero_add] using this

/-- A name before a dot is not the end of a chain. -/
theorem Whole.dotted (h : Whole w) : Whole (identifier :: symbol identifierSeparator :: w) := by
  have htail := h.cons (o := symbol identifierSeparator) rfl rfl
  obtain ⟨u, k, hlast, hk⟩ := htail.last
  refine ⟨by rw [depth_cons, htail.total]; rfl, fun a j x b heq => ?_, identifier :: u, k,
    by rw [hlast]; rfl, hk⟩
  rcases List.append_eq_cons_iff.1 heq.symm with ⟨rfl, hb⟩ | ⟨a, rfl, ha⟩
  · obtain ⟨rfl, hdot⟩ := List.cons.inj hb
    exact ⟨by decide, fun _ _ => (List.cons.inj hdot).1⟩
  · have := htail.inside a j x b ha
    simpa only [List.cons_append, depth_cons, step, Int.zero_add] using this

/-- Between a pair of brackets a bracket is open. -/
theorem depth_pos_of_bracket (ho : step o = 1) (hw : Balanced w) {x : TokenKind}
    (h : o :: w ++ [c] = u ++ k :: x :: v) : 0 < depth (u ++ [k]) := by
  obtain ⟨z, hz⟩ : ∃ z, o :: w = u ++ [k] ++ z := by
    have h : o :: w ++ [c] = u ++ [k] ++ x :: v := by rw [h]; simp
    rcases List.append_eq_append_iff.1 h with ⟨z, hz, hv⟩ | ⟨z, hz, -⟩
    · rcases List.append_eq_cons_iff.1 hv.symm with ⟨rfl, -⟩ | ⟨z', -, hnil⟩
      · exact ⟨[], by simpa using hz.symm⟩
      · simp at hnil
    · exact ⟨z, hz⟩
  have hne : u ++ [k] ≠ [] := by simp
  generalize u ++ [k] = t at hz hne
  cases t with
  | nil => exact absurd rfl hne
  | cons t ts =>
      obtain ⟨rfl, hsplit⟩ := List.cons.inj hz
      have := hw.nonneg ts z hsplit
      rw [depth_cons, ho]
      omega

theorem depth_bracket (ho : step o = 1) (hc : step c = -1) (hw : Balanced w) :
    depth (o :: w ++ [c]) = 0 := by
  simp [ho, hc, hw.total]

theorem Balanced.bracket (hw : Balanced w) (ho : step o = 1) (hc : step c = -1) :
    Balanced (o :: w ++ [c]) := by
  have hzero := depth_bracket ho hc hw
  refine ⟨hzero, fun u v h => ?_⟩
  rcases List.eq_nil_or_concat' u with rfl | ⟨u, k, rfl⟩
  · exact Int.le_refl 0
  · cases v with
    | nil =>
        rw [List.append_nil] at h
        rw [← h, hzero]
    | cons x v =>
        have h : o :: w ++ [c] = u ++ k :: x :: v := by rw [h]; simp
        exact Int.le_of_lt (depth_pos_of_bracket ho hw h)

theorem whole_bracket (ho : step o = 1) (hc : step c = -1) (hfinish : finishes c = true)
    (hw : Balanced w) : Whole (o :: w ++ [c]) := by
  refine ⟨depth_bracket ho hc hw, fun u k x v h => ?_, o :: w, c, rfl, hfinish⟩
  have := depth_pos_of_bracket ho hw h
  exact ⟨Int.le_of_lt this, fun hzero => absurd hzero (Int.ne_of_gt this)⟩

/-- What stands behind a pair of brackets that could not be the end. -/
theorem Whole.behind_bracket (h : Whole v) (ho : step o = 1) (hc : step c = -1)
    (hfinish : finishes c = false) (hw : Balanced w) : Whole (o :: w ++ [c] ++ v) := by
  have hzero := depth_bracket ho hc hw
  obtain ⟨u, k, rfl, hk⟩ := h.last
  refine ⟨by rw [depth_append, hzero, h.total]; rfl, fun a j x b heq => ?_,
    o :: w ++ [c] ++ u, k, by simp, hk⟩
  have hsplit : o :: w ++ [c] ++ (u ++ [k]) = a ++ [j] ++ x :: b := by rw [heq]; simp
  rcases List.append_eq_append_iff.1 hsplit with ⟨z, hz, hrest⟩ | ⟨z, hz, hrest⟩
  · rcases List.eq_nil_or_concat z with rfl | ⟨z, j', rfl⟩
    · -- the bracket that is closed is no end
      rw [List.append_nil] at hz
      obtain ⟨-, hj⟩ := List.append_inj' hz rfl
      obtain rfl : j = c := by simpa using hj
      rw [hz, hzero]
      simp [hfinish]
    · obtain ⟨rfl, hj⟩ := List.append_inj' (show a ++ [j] = (o :: w ++ [c] ++ z) ++ [j'] by
        rw [hz]; simp) rfl
      obtain rfl : j = j' := by simpa using hj
      have := h.inside z j x b (by rw [hrest]; simp)
      rw [List.append_assoc, depth_append, hzero, Int.zero_add]
      exact this
  · cases z with
    | nil =>
        rw [List.append_nil] at hz
        obtain ⟨-, hj⟩ := List.append_inj' hz rfl
        obtain rfl : c = j := by simpa using hj
        rw [← hz, hzero]
        simp [hfinish]
    | cons y z =>
        have := depth_pos_of_bracket ho hw (show o :: w ++ [c] = a ++ j :: y :: z by
          rw [hz]; simp)
        exact ⟨Int.le_of_lt this, fun hzero => absurd hzero (Int.ne_of_gt this)⟩

/-! ## Values -/

theorem whole_chain (n : Nat) : Whole (chain n) := by
  induction n with
  | zero => exact whole_singleton rfl rfl
  | succ n ih =>
      have hchain : chain (n + 1) = identifier :: symbol identifierSeparator :: chain n := by
        simp [chain, Language.dotted, List.replicate_succ]
      rw [hchain]
      exact ih.dotted

/-- A value is a whole. -/
theorem IsValue.whole (h : IsValue w) : Whole w := by
  induction h with
  | discard | integer | string => exact whole_singleton rfl rfl
  | chain n => exact whole_chain n
  | emptyList => exact whole_bracket rfl rfl rfl balanced_nil
  | list trailing _ _ ihhead ihtail =>
      have hrest := balanced_flatMap fun w hw =>
        (ihtail w hw).balanced.cons (k := symbol listSeparator) rfl
      have htrailing := balanced_maybe trailing (balanced_singleton (k := symbol listSeparator) rfl)
      exact whole_bracket rfl rfl rfl ((ihhead.balanced.append hrest).append htrailing)
  | map _ ih =>
      exact whole_bracket rfl rfl rfl <| balanced_flatMap fun w hw =>
        ((ih w hw).balanced.cons (k := symbol define) rfl).cons rfl
  | @function clause more word signed _ _ ihhead ihtail =>
      have hedges : Balanced edges :=
        (((balanced_singleton rfl).cons rfl : Balanced [identifier, identifier])).bracket
          (o := symbol typeParameterStart) (c := symbol typeParameterEnd) rfl rfl
      have hclause {c : List (List TokenKind)} (hc : ∀ w ∈ c, Whole w) : Balanced c.flatten := by
        have := balanced_flatMap (f := id) fun w hw => (hc w hw).balanced
        rwa [List.flatMap_id] at this
      have hmore := balanced_flatMap fun c hc =>
        (hclause (ihtail c hc)).cons (k := symbol clauseSeparator) rfl
      have hbody := whole_bracket (o := symbol functionStart) (c := symbol functionEnd) rfl rfl rfl
        (((balanced_maybe signed hedges).append (hclause ihhead)).append hmore)
      cases word with
      | false => simpa [maybe] using hbody
      | true => simpa [maybe] using hbody.cons (o := keyword .fnWord) rfl rfl
  | typeParameter _ _ _ ihleft ihright ihinner =>
      have := ihinner.behind_bracket (o := symbol typeParameterStart) rfl
        (c := symbol typeParameterEnd) rfl rfl
        (ihleft.balanced.append (ihright.balanced.cons (k := symbol listSeparator) rfl))
      simpa using this
  | typeAlias word _ ih => cases word <;> exact ih.cons rfl rfl
  | typeIdentity word _ ih => cases word <;> exact ih.cons rfl rfl

/-- Behind a value nothing more of a value is to be expected but a dot. -/
theorem IsValue.next (h : IsValue w) (hnext : IsValue (w ++ k :: v)) :
    k = symbol identifierSeparator := by
  obtain ⟨u, j, rfl, hfinish⟩ := h.whole.last
  exact (hnext.whole.inside u j k v (by simp)).2 h.whole.total hfinish

end Language

end WeLang
