import WeLang.Parse.Completion
import WeLang.Proofs.Path

/-!
# What the texts of tokens must be

Two things about a source are not a matter of token kinds. A numeral must denote
a number, which is to say that its digits belong to its base and what they denote
fits into 64 bits. And nobody may define a key twice.

Which map a key belongs to is a matter of brackets, and can be told by walking
through the tokens with one list of keys for every map that is open at the
moment: a brace opens a map without keys or closes the innermost, and a colon
gives the innermost map a new key, the token before the colon. The module is a
map that is open from the beginning. That is `DistinctKeys`.
-/

namespace WeLang

/-! ## Numerals -/

namespace Numeral

/-- The number that digits denote behind `acc`. -/
def positional (radix acc : Nat) (digits : List Char) : Nat :=
  digits.foldl (fun n c => n * radix + (digit? c).getD 0) acc

/-- A numeral has digits, all of its base, and denotes a number of at most 64
bits. -/
def Fits (text : String) : Prop :=
  (radixAndDigits text.toList).2 ≠ [] ∧
    (∀ c ∈ (radixAndDigits text.toList).2,
      ∃ d, digit? c = some d ∧ d < (radixAndDigits text.toList).1) ∧
    positional (radixAndDigits text.toList).1 0 (radixAndDigits text.toList).2 < UInt64.size

theorem le_positional {radix : Nat} (hr : 0 < radix) (acc : Nat) (digits : List Char) :
    acc ≤ positional radix acc digits := by
  induction digits generalizing acc with
  | nil => exact Nat.le_refl _
  | cons c cs ih =>
      refine Nat.le_trans ?_ (ih _)
      exact Nat.le_trans (Nat.le_mul_of_pos_right _ hr) (Nat.le_add_right ..)

theorem valueFrom_eq_ok {radix acc n : Nat} (hr : 0 < radix) {digits : List Char} :
    valueFrom radix acc digits = .ok n ↔
      n = positional radix acc digits ∧ (∀ c ∈ digits, ∃ d, digit? c = some d ∧ d < radix) ∧
        (digits = [] ∨ n < UInt64.size) := by
  induction digits generalizing acc with
  | nil => simp [valueFrom, positional, eq_comm]
  | cons c cs ih =>
      rw [valueFrom]
      cases hd : (digit? c).filter (· < radix) with
      | none =>
          simp only [reduceCtorEq, List.forall_mem_cons, false_iff]
          intro h
          obtain ⟨_, ⟨⟨d, hc, hlt⟩, _⟩, _⟩ := h
          simp only [hc, Option.filter_eq_none_iff, Option.some.injEq, decide_eq_true_eq] at hd
          exact hd d rfl hlt
      | some d =>
          obtain ⟨hc, hlt⟩ : digit? c = some d ∧ d < radix := by
            simpa [Option.filter_eq_some_iff] using hd
          have hstep : positional radix acc (c :: cs) = positional radix (acc * radix + d) cs := by
            simp [positional, hc]
          simp only
          rw [hstep]
          have hle := le_positional hr (acc * radix + d) cs
          split
          · next hsmall =>
              rw [ih]
              constructor
              · intro h
                obtain ⟨rfl, hall, hend⟩ := h
                refine ⟨rfl, by simpa [hc, hlt] using hall, .inr ?_⟩
                rcases hend with rfl | hend
                · exact hsmall
                · exact hend
              · intro h
                obtain ⟨rfl, hall, hend⟩ := h
                rw [List.forall_mem_cons] at hall
                exact ⟨rfl, hall.2, .inr (by simpa using hend)⟩
          · next hbig =>
              simp only [reduceCtorEq, false_iff]
              intro h
              obtain ⟨rfl, _, hend⟩ := h
              have : positional radix (acc * radix + d) cs < UInt64.size := by simpa using hend
              omega

theorem radix_pos (cs : List Char) : 0 < (radixAndDigits cs).1 := by
  unfold radixAndDigits
  split <;> simp

/-- Numerals that fit are those that have a value. -/
theorem exists_value_iff {text : String} : (∃ v, value text = .ok v) ↔ Fits text := by
  have hr := radix_pos text.toList
  rw [value, Fits]
  generalize radixAndDigits text.toList = parts at hr
  obtain ⟨radix, digits⟩ := parts
  simp only at hr ⊢
  split
  · next hnil =>
      simp [List.isEmpty_iff.1 hnil]
  · next hne =>
      have hne : digits ≠ [] := fun h => hne (List.isEmpty_iff.2 h)
      cases hv : valueFrom radix 0 digits with
      | ok n =>
          obtain ⟨rfl, hall, hend⟩ := (valueFrom_eq_ok hr).1 hv
          exact iff_of_true ⟨_, rfl⟩ ⟨hne, hall, hend.resolve_left hne⟩
      | error fault =>
          refine iff_of_false ?_ fun ⟨_, hall, hend⟩ => ?_
          · intro h
            obtain ⟨v, h⟩ := h
            cases fault <;> cases h
          · rw [(valueFrom_eq_ok hr).2 ⟨rfl, hall, .inr hend⟩] at hv
            cases hv

end Numeral

/-! ## Keys -/

/-- The keys of the maps that are open behind a token of a kind. The token before
it was `last`. -/
def keysAfter (k : TokenKind) (last : String) (maps : List (List String)) : List (List String) :=
  match k with
  | .symbol .mapStart => [] :: maps
  | .symbol .mapEnd => maps.tail
  | .symbol .define => (maps.headD [] ++ [last]) :: maps.tail
  | _ => maps

/-- No map gets a key that it has already. The maps that are open before the
tokens have the keys `maps`, the innermost first, and the token before them was
`last`. -/
def DistinctKeys : String → List (List String) → List Lexeme → Prop
  | _, _, [] => True
  | last, maps, x :: xs =>
      (x.kind = .symbol .define → last ∉ maps.headD []) ∧
        DistinctKeys x.text (keysAfter x.kind last maps) xs

/-- Tokens with numerals that fit and keys that are distinct. -/
def WellWorded (last : String) (maps : List (List String)) (xs : List Lexeme) : Prop :=
  (∀ x ∈ xs, x.kind = .integer → Numeral.Fits x.text) ∧ DistinctKeys last maps xs

/-- The tokens from an offset on are all there are, with numerals that fit and keys
that are distinct. -/
def Source.WellWorded (s : Source) (last : String) (maps : List (List String)) (o : Nat) : Prop :=
  ∃ xs, s.Reads o xs ∧ WeLang.WellWorded last maps xs

variable {s : Source} {o : Nat} {last : String} {maps : List (List String)}

theorem Source.wellWorded_of_isSpent (h : s.isSpent o = true) : s.WellWorded last maps o :=
  ⟨[], Reads.nil_iff.2 h, by simp, trivial⟩

theorem Source.wellWorded_iff {x : Lexeme} (h : s.lexeme? o = some x) :
    s.WellWorded last maps o ↔
      (x.kind = .integer → Numeral.Fits x.text) ∧
        (x.kind = .symbol .define → last ∉ maps.headD []) ∧
          s.WellWorded x.text (keysAfter x.kind last maps) x.span.stop := by
  constructor
  · intro hex
    obtain ⟨xs, hreads, hfits, hkeys⟩ := hex
    cases xs with
    | nil =>
        rw [lexeme?_of_isSpent (Reads.nil_iff.1 hreads)] at h
        cases h
    | cons y ys =>
        obtain ⟨hy, hreads⟩ := Reads.cons_iff.1 hreads
        obtain rfl := Option.some.inj (hy.symm.trans h)
        rw [List.forall_mem_cons] at hfits
        exact ⟨hfits.1, hkeys.1, ys, hreads, hfits.2, hkeys.2⟩
  · intro hand
    obtain ⟨hfits, hkey, xs, hreads, hfits', hkeys⟩ := hand
    refine ⟨x :: xs, Reads.cons_iff.2 ⟨h, hreads⟩, ?_, hkey, hkeys⟩
    rw [List.forall_mem_cons]
    exact ⟨hfits, hfits'⟩

end WeLang
