import WeLang.Proofs.Path

/-!
# Parts of a source

A piece of a source is a source as well, and what is read in it is what is read there in
the whole. The rules look at the bytes of a match, at the one before it and at the one
behind. Of these only the last two can be missing in the piece. A missing byte behind a
match does no harm: a stretch that ended at some byte now ends at the end. The byte before
matters to words alone, and only to the first of the piece: a reserved word that is glued to
what comes before is a name (`Lexeme.Glued`), and in the piece it is not. A `Source.Part` is a
piece that is not glued to what comes before.

The other way round it is not true. What is read at the end of the piece may go on in the
whole.
-/

namespace WeLang

variable {s t : Source} {d o o' start stop : Nat} {p : UInt8 → Bool}

/-- What stands in `s` from `d` on, as far as `t` reaches, is `t`. -/
structure Source.Piece (s : Source) (d : Nat) (t : Source) : Prop where
  slice : s.slice? d (d + t.size) = some t.text

/-- A piece directly before which no name byte comes. -/
structure Source.Part (s : Source) (d : Nat) (t : Source) : Prop extends Source.Piece s d t where
  free : s.nameByteBefore d = false

theorem Source.piece_of_slice? {text : String} (h : s.slice? start stop = some text) :
    s.Piece start ⟨text⟩ := by
  refine ⟨?_⟩
  rw [show Source.size ⟨text⟩ = text.utf8ByteSize from rfl, size_of_slice? h]
  exact h

/-- Of rules that agree on what they match, and on what they do not, the first to match
is the same. -/
theorem findSome?_of_agree {rules : List Rule} {stop' : Nat}
    (hsome : ∀ r ∈ rules, r s start = some stop → r t o = some stop')
    (hnone : ∀ r ∈ rules, r s start = none → r t o = none)
    (hm : rules.findSome? (fun r => r s start) = some stop) :
    rules.findSome? (fun r => r t o) = some stop' := by
  induction rules with
  | nil => cases hm
  | cons r rules ih =>
      rw [List.forall_mem_cons] at hsome hnone
      rw [List.findSome?_cons] at hm ⊢
      cases hr : r s start with
      | some found =>
          rw [hr] at hm
          rw [hsome.1 (hr.trans hm)]
      | none =>
          rw [hr] at hm
          rw [hnone.1 hr]
          exact ih hsome.2 hnone.2 hm

namespace Source.Piece

theorem bytes (h : s.Piece d t) : bytesOf t.text = ((bytesOf s.text).drop d).take t.size := by
  obtain ⟨_, _, _, hbytes⟩ := slice?_eq_some.1 h.slice
  rwa [Nat.add_sub_cancel_left] at hbytes

theorem byte? (h : s.Piece d t) {i : Nat} (hi : i < t.size) : t.byte? i = s.byte? (d + i) := by
  rw [byte?_eq_getElem?, byte?_eq_getElem?, h.bytes, List.getElem?_take_of_lt hi,
    List.getElem?_drop]

theorem byteIn (h : s.Piece d t) {i : Nat} (hi : i < t.size) :
    t.byteIn p i = s.byteIn p (d + i) := by
  rw [Source.byteIn, Source.byteIn, h.byte? hi]

/-- Outside of a class in the whole is outside of it in the part. -/
theorem not_byteIn (h : s.Piece d t) {i : Nat} (hout : s.byteIn p (d + i) = false) :
    t.byteIn p i = false := by
  rcases Nat.lt_or_ge i t.size with hi | hi
  · rwa [h.byteIn hi]
  · rw [Source.byteIn, byte?_eq_none hi]
    rfl

theorem skipWhile (h : s.Piece d t) (hstop : s.skipWhile p (d + start) = d + stop)
    (hle : stop ≤ t.size) : t.skipWhile p start = stop := by
  have hfrom := s.le_skipWhile p (d + start)
  refine skipWhile_eq (by omega) (fun i hi hlt => ?_) (h.not_byteIn ?_)
  · rw [h.byteIn (by omega)]
    exact byteIn_skipWhile (Nat.add_le_add_left hi d) (by omega)
  · rw [← hstop]
    exact s.not_byteIn_skipWhile p _

theorem boundary (h : s.Piece d t) (hle : start ≤ t.size) :
    t.Boundary start ↔ s.Boundary (d + start) := by
  rcases Nat.lt_or_eq_of_le hle with hlt | rfl
  · obtain ⟨_, hend, _⟩ := slice?_eq_some.1 h.slice
    have := hend.le_size
    rw [boundary_iff_byte, boundary_iff_byte, h.byte? hlt]
    have hne : start ≠ t.size := by omega
    have hne' : d + start ≠ s.size := by omega
    simp only [hne, hne', false_or]
  · obtain ⟨_, hend, _⟩ := slice?_eq_some.1 h.slice
    exact iff_of_true t.boundary_size hend

theorem slice? (h : s.Piece d t) (hle : stop ≤ t.size) :
    t.slice? start stop = s.slice? (d + start) (d + stop) := by
  ext text
  simp only [slice?_eq_some]
  by_cases hord : start ≤ stop
  · have hbytes : ((bytesOf t.text).drop start).take (stop - start) =
        ((bytesOf s.text).drop (d + start)).take (d + stop - (d + start)) := by
      rw [h.bytes, List.drop_take, List.take_take, List.drop_drop]
      congr 1
      omega
    rw [h.boundary hle, h.boundary (Nat.le_trans hord hle), hbytes]
    simp only [hord, Nat.add_le_add_iff_left]
  · simp [hord]

theorem nameByteBefore (h : s.Piece d t) (hle : start ≤ t.size)
    (hfree : start = 0 → s.nameByteBefore d = false) :
    t.nameByteBefore start = s.nameByteBefore (d + start) := by
  rcases Nat.eq_zero_or_pos start with rfl | hpos
  · rw [Nat.add_zero, hfree rfl]
    rfl
  · have hlast : d + start - 1 = d + (start - 1) := by omega
    have hpos' : 0 < d + start := by omega
    simp only [Source.nameByteBefore, hlast, hpos, hpos', h.byteIn (i := start - 1) (by omega)]

/-! ## Rules -/

theorem name (h : s.Piece d t) (hm : Literal.name s (d + start) = some (d + stop))
    (hle : stop ≤ t.size) : Literal.name t start = some stop := by
  obtain ⟨ha, hlt, hin, hout⟩ := Literal.name_eq_some.1 hm
  refine Literal.name_eq_some.2 ⟨?_, by omega, fun i hi hlt' => ?_, h.not_byteIn hout⟩
  · rwa [h.byteIn (by omega)]
  · rw [h.byteIn (by omega)]
    exact hin _ (by omega) (by omega)

theorem digits (h : s.Piece d t) (hm : Literal.digits s (d + start) = some (d + stop))
    (hle : stop ≤ t.size) : Literal.digits t start = some stop := by
  obtain ⟨hlt, hskip⟩ := Literal.digits_eq_some.1 hm
  exact Literal.digits_eq_some.2 ⟨by omega, h.skipWhile hskip hle⟩

theorem digits_eq_none (h : s.Piece d t) (hm : Literal.digits s (d + start) = none) :
    Literal.digits t start = none :=
  Literal.digits_eq_none.2 (h.not_byteIn (Literal.digits_eq_none.1 hm))

theorem radixNumeral (h : s.Piece d t) {mark : Char}
    (hm : Literal.radixNumeral mark s (d + start) = some (d + stop)) (hle : stop ≤ t.size) :
    Literal.radixNumeral mark t start = some stop := by
  rw [Literal.radixNumeral] at hm ⊢
  split at hm
  · next hmark =>
      have hdigits : Literal.digits t (start + 2) = some stop := h.digits hm hle
      have := (Literal.digits_eq_some.1 hdigits).1
      rwa [h.byte? (by omega), h.byte? (by omega), ← Nat.add_assoc, if_pos hmark]
  · cases hm

theorem radixNumeral_eq_none (h : s.Piece d t) {mark : Char}
    (hm : Literal.radixNumeral mark s (d + start) = none) :
    Literal.radixNumeral mark t start = none := by
  rw [Literal.radixNumeral] at hm ⊢
  split
  · next hmark =>
      have hlt := lt_size_of_byte? hmark.1
      have hlt' := lt_size_of_byte? hmark.2
      rw [h.byte? hlt, h.byte? hlt', ← Nat.add_assoc] at hmark
      rw [if_pos hmark] at hm
      rw [Nat.add_assoc] at hm
      exact h.digits_eq_none hm
  · rfl

theorem numeral (h : s.Piece d t) (hm : Literal.numeral s (d + start) = some (d + stop))
    (hle : stop ≤ t.size) : Literal.numeral t start = some stop := by
  refine findSome?_of_agree ?_ ?_ hm
  · simp only [List.forall_mem_cons, List.not_mem_nil, false_implies, implies_true, and_true]
    exact ⟨fun hm => h.radixNumeral hm hle, fun hm => h.radixNumeral hm hle,
      fun hm => h.radixNumeral hm hle, fun hm => h.digits hm hle⟩
  · simp only [List.forall_mem_cons, List.not_mem_nil, false_implies, implies_true, and_true]
    exact ⟨h.radixNumeral_eq_none, h.radixNumeral_eq_none, h.radixNumeral_eq_none,
      h.digits_eq_none⟩

theorem closingQuote (h : s.Piece d t) {pos : Nat} (hpos : pos = d + start)
    (hm : Literal.closingQuote s pos = some (d + stop)) (hle : stop ≤ t.size) :
    Literal.closingQuote t start = some stop := by
  have hlt := (Literal.closingQuote_eq_some hm).1
  fun_induction Literal.closingQuote s pos generalizing start with
  | case1 pos hb => cases hm
  | case2 pos hb =>
      subst hpos
      rw [← h.byte? (by omega)] at hb
      rw [Literal.closingQuote_of_byte? hb, if_pos rfl]
      have := Option.some.inj hm
      exact congrArg some (by omega)
  | case3 pos hb hne ih =>
      have hlt' := (Literal.closingQuote_eq_some hm).1
      subst hpos
      rw [← h.byte? (by omega)] at hb
      rw [Literal.closingQuote_of_byte? hb, if_neg hne, if_pos rfl]
      exact ih (by omega) hm hlt'
  | case4 pos b hb hne hne' ih =>
      have hlt' := (Literal.closingQuote_eq_some hm).1
      subst hpos
      rw [← h.byte? (by omega)] at hb
      rw [Literal.closingQuote_of_byte? hb, if_neg hne, if_neg hne']
      exact ih (by omega) hm hlt'

/-- A match of a kind in the whole is one in the piece, if it lies there. -/
theorem matchAt (h : s.Piece d t) {k : TokenKind}
    (hm : k.matchAt s (d + start) = .ok (some (d + stop))) (hle : stop ≤ t.size)
    (hfree : k = .identifier → ∀ w : Keyword, s.slice? (d + start) (d + stop) = some w.spelling →
      s.nameByteBefore d = false) :
    k.matchAt t start = .ok (some stop) := by
  have hlt := (TokenKind.matchAt_bounds hm).1
  cases k with
  | symbol m =>
      obtain ⟨hb, heq⟩ := byteRule_eq_some.1 (Except.ok.inj hm)
      rw [← h.byte? (by omega)] at hb
      exact congrArg Except.ok (byteRule_eq_some.2 ⟨hb, by omega⟩)
  | keyword w =>
      obtain ⟨hname, hslice, hbefore⟩ := Keyword.rule_eq_some.1 (Except.ok.inj hm)
      rw [← h.slice? hle] at hslice
      rw [← h.nameByteBefore (by omega) fun hzero => by simpa [hzero] using hbefore] at hbefore
      exact congrArg Except.ok (Keyword.rule_eq_some.2 ⟨h.name hname hle, hslice, hbefore⟩)
  | identifier =>
      obtain ⟨hname, hglued⟩ := nameRule_eq_some.1 (Except.ok.inj hm)
      refine congrArg Except.ok (nameRule_eq_some.2 ⟨h.name hname hle, fun w hw => ?_⟩)
      rw [h.slice? hle] at hw
      rw [h.nameByteBefore (by omega) fun _ => hfree rfl w hw]
      exact hglued w hw
  | integer => exact congrArg Except.ok (h.numeral (Except.ok.inj hm) hle)
  | string =>
      obtain ⟨hb, hclose⟩ := Literal.string_eq_some.1 hm
      have := (Literal.closingQuote_eq_some hclose).1
      rw [← h.byte? (by omega)] at hb
      exact Literal.string_eq_some.2 ⟨hb, h.closingQuote (Nat.add_assoc ..) hclose hle⟩
  | unknown => cases hm

theorem textOf (h : s.Piece d t) (k : TokenKind) (hle : stop ≤ t.size) :
    k.textOf t ⟨start, stop⟩ = k.textOf s ⟨d + start, d + stop⟩ := by
  have hslice : t.slice? start stop = _ := h.slice? hle
  cases k with
  | string =>
      simp only [TokenKind.textOf, Literal.contents?]
      by_cases hlong : start + 2 ≤ stop
      · have hinner : t.slice? (start + 1) (stop - 1) = _ := h.slice? (by omega)
        have hstop : d + (stop - 1) = d + stop - 1 := by omega
        rw [if_pos hlong, if_pos (by omega), hinner, hstop, Nat.add_assoc]
      · rw [if_neg hlong, if_neg (by omega)]
  | symbol _ | keyword _ | identifier | integer | unknown =>
      simp only [TokenKind.textOf, hslice]

end Source.Piece

/-- A name that is spelled like a reserved word. It is glued to what comes before, or it would
be one. -/
def Lexeme.Glued (x : Lexeme) : Prop :=
  x.kind = .identifier ∧ ∃ w : Keyword, x.text = w.spelling

/-- A token that stands further behind. -/
def Lexeme.shift (d : Nat) (x : Lexeme) : Lexeme :=
  ⟨x.kind, x.text, ⟨d + x.span.start, d + x.span.stop⟩⟩

namespace Source.Piece

/-- What is read in the whole is read in the piece, as long as it lies there, unless it is a
reserved word that is glued to what comes before. -/
theorem lexeme? (h : s.Piece d t) {x : Lexeme} (hx : s.lexeme? (d + o) = some x)
    (hle : x.span.stop ≤ d + t.size) (hfree : x.Glued → s.nameByteBefore d = false) :
    ∃ y, x = y.shift d ∧ t.lexeme? o = some y := by
  have hbounds := lexeme?_bounds hx
  obtain ⟨kind, text, first, last⟩ := x
  obtain ⟨hfirst, hm, htext⟩ := lexeme?_eq_some.1 hx
  simp only at hfirst hm htext hbounds hle
  obtain ⟨start, rfl⟩ := Nat.exists_eq_add_of_le (show d ≤ first by omega)
  obtain ⟨stop, rfl⟩ := Nat.exists_eq_add_of_le (show d ≤ last by omega)
  have hskip : t.skipBlanks o = start := h.skipWhile hfirst.symm (by omega)
  rw [← hfirst] at hm
  have hmatch : kind.matchAt t start = .ok (some stop) := by
    refine h.matchAt hm (by omega) fun hk w hw => hfree ⟨hk, w, ?_⟩
    subst hk
    rw [htext]
    simp only [TokenKind.textOf, hw, Option.getD_some]
  refine ⟨⟨kind, text, start, stop⟩, rfl, lexeme?_eq_some.2 ⟨hskip.symm, ?_, ?_⟩⟩
  · rw [hskip, hmatch]
  · rw [htext, h.textOf kind (show stop ≤ t.size by omega)]

theorem path (h : s.Piece d t) {xs : List Lexeme} (hp : s.Path (d + o) xs (d + o'))
    (hle : o' ≤ t.size) (hfree : ∀ x ∈ xs, x.Glued → s.nameByteBefore d = false) :
    ∃ ys, xs = ys.map (Lexeme.shift d) ∧ t.Path o ys o' := by
  induction xs generalizing o with
  | nil =>
      generalize hm : d + o = m at hp
      generalize hm' : d + o' = m' at hp
      cases hp
      obtain rfl : o = o' := by omega
      exact ⟨[], rfl, .nil o⟩
  | cons x xs ih =>
      cases hp with
      | cons head tail =>
          have := tail.le
          rw [List.forall_mem_cons] at hfree
          obtain ⟨y, rfl, hy⟩ := h.lexeme? head (by omega) hfree.1
          obtain ⟨ys, rfl, hys⟩ := ih tail hfree.2
          exact ⟨y :: ys, rfl, .cons hy hys⟩

end Source.Piece

/-- What is read in the whole is read in the part, as long as it lies there. -/
theorem Source.Part.path (h : s.Part d t) {xs : List Lexeme} (hp : s.Path (d + o) xs (d + o'))
    (hle : o' ≤ t.size) : ∃ ys, xs = ys.map (Lexeme.shift d) ∧ t.Path o ys o' :=
  h.toPiece.path hp hle fun _ _ _ => h.free

end WeLang
