import WeLang.Proofs.Parts

/-!
# Seams

What is read in a piece of a source need not be read there in the whole, since it may go on
behind the piece, or be a part of something that began before it. But names, numerals and
reserved words are made of name bytes, and a mark is one byte, so the only thing that goes
from one name byte to another byte or back is a string. An offset without a name byte on
either side of it or on one of them is a `Source.Seam`; a piece between two seams is an
`Source.Island`, and what is read on an island is read in the whole (`Source.Island.path`).

So where one source is joined to another with seams at both (`Source.Joint`), the whole is
read as the one and then the other, as long as the first can be read to its end. Two texts
may be put together at a seam, and with blanks between at any place.
-/

namespace WeLang

variable {s t : Source} {d o o' start stop : Nat} {p : UInt8 → Bool}

theorem Lexeme.shift_zero : Lexeme.shift 0 = id := by
  funext x
  simp [Lexeme.shift]

/-- An offset at which no two name bytes meet. -/
def Source.Seam (s : Source) (i : Nat) : Prop :=
  s.nameByteBefore i = true → s.byteIn ByteClass.isNameByte i = false

theorem Source.seam_zero (s : Source) : s.Seam 0 := by
  intro hzero
  cases hzero

/-- A piece with seams at both ends. -/
structure Source.Island (s : Source) (d : Nat) (t : Source) : Prop
    extends Source.Piece s d t where
  before : s.Seam d
  behind : s.Seam (d + t.size)

namespace Source.Piece

theorem closingQuote_whole (h : s.Piece d t) {pos : Nat}
    (hm : Literal.closingQuote t pos = some stop) :
    Literal.closingQuote s (d + pos) = some (d + stop) := by
  fun_induction Literal.closingQuote t pos with
  | case1 pos hb => cases hm
  | case2 pos hb =>
      rw [h.byte? (lt_size_of_byte? hb)] at hb
      rw [Literal.closingQuote_of_byte? hb, if_pos rfl]
      have := Option.some.inj hm
      exact congrArg some (by omega)
  | case3 pos hb hne ih =>
      rw [h.byte? (lt_size_of_byte? hb)] at hb
      rw [Literal.closingQuote_of_byte? hb, if_neg hne, if_pos rfl]
      exact ih hm
  | case4 pos b hb hne hne' ih =>
      rw [h.byte? (lt_size_of_byte? hb)] at hb
      rw [Literal.closingQuote_of_byte? hb, if_neg hne, if_neg hne']
      exact ih hm

theorem skipBlanks_whole (h : s.Piece d t) (hlt : t.skipBlanks o < t.size) :
    s.skipBlanks (d + o) = d + t.skipBlanks o := by
  have hle := t.le_skipBlanks o
  refine skipWhile_eq (by omega) (fun i hi hi' => ?_) ?_
  · obtain ⟨j, rfl⟩ := Nat.exists_eq_add_of_le (show d ≤ i by omega)
    rw [← h.byteIn (by omega)]
    exact byteIn_skipWhile (by omega) (show j < t.skipBlanks o by omega)
  · rw [← h.byteIn hlt]
    exact t.not_byteIn_skipWhile _ _

/-- Where only blanks are left of the piece, one goes on behind it. -/
theorem skipBlanks_of_isSpent (h : s.Piece d t) (hle : o ≤ t.size) (hs : t.isSpent o = true) :
    s.skipBlanks (d + o) = s.skipBlanks (d + t.size) := by
  simp only [isSpent, decide_eq_true_eq] at hs
  refine (skipBlanks_of_le (by omega) ?_).symm
  by_contra hlt
  have hout := s.not_byteIn_skipWhile ByteClass.isBlank (d + o)
  have hfrom := s.le_skipBlanks (d + o)
  rw [← Source.skipBlanks] at hout
  obtain ⟨j, hj⟩ := Nat.exists_eq_add_of_le (show d ≤ s.skipBlanks (d + o) by omega)
  rw [hj, ← h.byteIn (by omega)] at hout
  rw [byteIn_skipWhile (show o ≤ j by omega) (by rw [← Source.skipBlanks]; omega)] at hout
  cases hout

end Source.Piece

namespace Source.Island

/-- Behind a name byte, outside of a class of name bytes on the island is outside of it in
the whole. -/
theorem not_byteIn_succ (h : s.Island d t) (hp : ∀ b, p b = true → ByteClass.isNameByte b = true)
    {i : Nat} (hin : t.byteIn ByteClass.isNameByte i = true) (hout : t.byteIn p (i + 1) = false) :
    s.byteIn p (d + (i + 1)) = false := by
  have hi := lt_size_of_byteIn hin
  rcases Nat.lt_or_eq_of_le (Nat.succ_le_of_lt hi) with hlt | heq
  · rwa [← h.byteIn hlt]
  · have hbefore : s.nameByteBefore (d + (i + 1)) = true := by
      rw [h.byteIn hi] at hin
      rw [nameByteBefore, show d + (i + 1) - 1 = d + i by omega, hin]
      simp
    have hbehind := h.behind
    rw [← heq] at hbehind
    have hno := hbehind hbefore
    rw [Bool.eq_false_iff] at hno ⊢
    intro hyes
    obtain ⟨b, hb, hpb⟩ := byteIn_iff.1 hyes
    exact hno (byteIn_iff.2 ⟨b, hb, hp b hpb⟩)

/-- A stretch of a class of name bytes ends in the whole where it ends on the island. -/
theorem skipWhile (h : s.Island d t) (hp : ∀ b, p b = true → ByteClass.isNameByte b = true)
    (hlt : start < stop) (hskip : t.skipWhile p start = stop) :
    s.skipWhile p (d + start) = d + stop := by
  have hin {i : Nat} (hle : start ≤ i) (hi : i < stop) : t.byteIn p i = true :=
    byteIn_skipWhile hle (hskip ▸ hi)
  refine skipWhile_eq (by omega) (fun i hle hi => ?_) ?_
  · obtain ⟨j, rfl⟩ := Nat.exists_eq_add_of_le (show d ≤ i by omega)
    have hj := hin (i := j) (by omega) (by omega)
    rwa [h.byteIn (lt_size_of_byteIn hj)] at hj
  · obtain ⟨last, rfl⟩ : ∃ last, stop = last + 1 := ⟨stop - 1, by omega⟩
    have hout := t.not_byteIn_skipWhile p start
    rw [hskip] at hout
    obtain ⟨b, hb, hpb⟩ := byteIn_iff.1 (hin (i := last) (by omega) (by omega))
    exact h.not_byteIn_succ hp (byteIn_iff.2 ⟨b, hb, hp b hpb⟩) hout

/-! ## Rules -/

theorem name (h : s.Island d t) (hm : Literal.name t start = some stop) :
    Literal.name s (d + start) = some (d + stop) := by
  obtain ⟨ha, hlt, hin, hout⟩ := Literal.name_eq_some.1 hm
  obtain ⟨last, rfl⟩ : ∃ last, stop = last + 1 := ⟨stop - 1, by omega⟩
  refine Literal.name_eq_some.2 ⟨?_, by omega, fun i hle hi => ?_, ?_⟩
  · rwa [← h.byteIn (lt_size_of_byteIn ha)]
  · obtain ⟨j, rfl⟩ := Nat.exists_eq_add_of_le (show d ≤ i by omega)
    have hj := hin j (by omega) (by omega)
    rwa [h.byteIn (lt_size_of_byteIn hj)] at hj
  · exact h.not_byteIn_succ (fun _ hb => hb) (hin last (by omega) (by omega)) hout

theorem digits (h : s.Island d t) (hm : Literal.digits t start = some stop) :
    Literal.digits s (d + start) = some (d + stop) := by
  obtain ⟨hlt, hskip⟩ := Literal.digits_eq_some.1 hm
  have hstop := h.skipWhile (fun _ => ByteClass.isNameByte_of_isNumeric) hlt hskip
  exact Literal.digits_eq_some.2 ⟨by omega, hstop⟩

theorem radixNumeral (h : s.Island d t) {mark : Char}
    (hm : Literal.radixNumeral mark t start = some stop) :
    Literal.radixNumeral mark s (d + start) = some (d + stop) := by
  rw [Literal.radixNumeral] at hm ⊢
  split at hm
  · next hmark =>
      rw [h.byte? (lt_size_of_byte? hmark.1), h.byte? (lt_size_of_byte? hmark.2),
        ← Nat.add_assoc] at hmark
      rw [if_pos hmark, Nat.add_assoc]
      exact h.digits hm
  · cases hm

theorem radixNumeral_eq_none (h : s.Island d t) {mark : Char}
    (hname : ByteClass.isNameByte mark.toUInt8 = true) (hstart : start < t.size)
    (hm : Literal.radixNumeral mark t start = none) :
    Literal.radixNumeral mark s (d + start) = none := by
  rw [Literal.radixNumeral] at hm ⊢
  split
  · next hmark =>
      obtain ⟨hzero, hnext⟩ := hmark
      rw [← h.byte? hstart] at hzero
      have hin : t.byteIn ByteClass.isNameByte start = true :=
        byteIn_iff.2 ⟨_, hzero, by decide⟩
      -- The mark is a name byte behind a name byte, so it is on the island as well.
      have hnext' : t.byte? (start + 1) = some mark.toUInt8 := by
        by_contra hne
        have hout : t.byteIn (· == mark.toUInt8) (start + 1) = false := by
          rw [Bool.eq_false_iff]
          intro hyes
          obtain ⟨b, hb, heq⟩ := byteIn_iff.1 hyes
          exact hne (eq_of_beq heq ▸ hb)
        have hno := h.not_byteIn_succ (fun b (hb : (b == _) = true) => eq_of_beq hb ▸ hname) hin
          hout
        rw [← Nat.add_assoc, byteIn, hnext] at hno
        simp at hno
      rw [if_pos ⟨hzero, hnext'⟩] at hm
      rw [Nat.add_assoc]
      refine Literal.digits_eq_none.2 ?_
      exact h.not_byteIn_succ (fun _ => ByteClass.isNameByte_of_isNumeric)
        (byteIn_iff.2 ⟨_, hnext', hname⟩) (Literal.digits_eq_none.1 hm)
  · rfl

theorem numeral (h : s.Island d t) (hm : Literal.numeral t start = some stop) :
    Literal.numeral s (d + start) = some (d + stop) := by
  have hstart := lt_size_of_byteIn (Literal.numeral_eq_some hm).1
  refine findSome?_of_agree ?_ ?_ hm
  · simp only [List.forall_mem_cons, List.not_mem_nil, false_implies, implies_true, and_true]
    exact ⟨h.radixNumeral, h.radixNumeral, h.radixNumeral, h.digits⟩
  · simp only [List.forall_mem_cons, List.not_mem_nil, false_implies, implies_true, and_true]
    refine ⟨h.radixNumeral_eq_none (by decide) hstart, h.radixNumeral_eq_none (by decide) hstart,
      h.radixNumeral_eq_none (by decide) hstart, fun hno => Literal.digits_eq_none.2 ?_⟩
    rw [← h.byteIn hstart]
    exact Literal.digits_eq_none.1 hno

/-- Before a name on the island comes in the whole what comes on the island. -/
theorem nameByteBefore (h : s.Island d t) (hname : Literal.name t start = some stop) :
    s.nameByteBefore (d + start) = t.nameByteBefore start := by
  obtain ⟨ha, hlt, hin, -⟩ := Literal.name_eq_some.1 hname
  have hhead := hin start (Nat.le_refl _) hlt
  have hstart := lt_size_of_byteIn hhead
  refine (h.toPiece.nameByteBefore (Nat.le_of_lt hstart) fun hzero => ?_).symm
  subst hzero
  rw [h.byteIn hstart, Nat.add_zero] at hhead
  rw [Bool.eq_false_iff]
  intro hbefore
  rw [h.before hbefore] at hhead
  cases hhead

/-- A match of a kind on the island is one in the whole. -/
theorem matchAt (h : s.Island d t) {k : TokenKind} (hm : k.matchAt t start = .ok (some stop)) :
    k.matchAt s (d + start) = .ok (some (d + stop)) := by
  have hstop := (TokenKind.matchAt_bounds hm).2.2.le_size
  cases k with
  | symbol m =>
      obtain ⟨hb, rfl⟩ := byteRule_eq_some.1 (Except.ok.inj hm)
      rw [h.byte? (lt_size_of_byte? hb)] at hb
      exact congrArg Except.ok (byteRule_eq_some.2 ⟨hb, rfl⟩)
  | keyword w =>
      obtain ⟨hname, hslice, hbefore⟩ := Keyword.rule_eq_some.1 (Except.ok.inj hm)
      rw [h.slice? hstop] at hslice
      rw [← h.nameByteBefore hname] at hbefore
      exact congrArg Except.ok (Keyword.rule_eq_some.2 ⟨h.name hname, hslice, hbefore⟩)
  | identifier =>
      obtain ⟨hname, hglued⟩ := nameRule_eq_some.1 (Except.ok.inj hm)
      refine congrArg Except.ok (nameRule_eq_some.2 ⟨h.name hname, fun w hw => ?_⟩)
      rw [← h.slice? hstop] at hw
      rw [h.nameByteBefore hname]
      exact hglued w hw
  | integer => exact congrArg Except.ok (h.numeral (Except.ok.inj hm))
  | string =>
      obtain ⟨hb, hclose⟩ := Literal.string_eq_some.1 hm
      rw [h.byte? (lt_size_of_byte? hb)] at hb
      refine Literal.string_eq_some.2 ⟨hb, ?_⟩
      rw [Nat.add_assoc]
      exact h.toPiece.closingQuote_whole hclose
  | unknown => cases hm

/-! ## Paths -/

/-- What is read on the island is read in the whole. -/
theorem lexeme? (h : s.Island d t) {x : Lexeme} (hx : t.lexeme? o = some x) :
    s.lexeme? (d + o) = some (x.shift d) := by
  have hbounds := lexeme?_bounds hx
  obtain ⟨kind, text, first, last⟩ := x
  obtain ⟨hfirst, hm, htext⟩ := lexeme?_eq_some.1 hx
  simp only at hfirst hm htext hbounds
  have hskip : s.skipBlanks (d + o) = d + t.skipBlanks o :=
    h.toPiece.skipBlanks_whole (by omega)
  refine lexeme?_eq_some.2 ⟨?_, ?_, ?_⟩
  · rw [hskip, ← hfirst]
    rfl
  · rw [hskip]
    exact h.matchAt hm
  · rw [Lexeme.shift, htext, h.textOf kind hbounds.2.2.1]

theorem path (h : s.Island d t) {xs : List Lexeme} (hpath : t.Path o xs o') :
    s.Path (d + o) (xs.map (Lexeme.shift d)) (d + o') := by
  induction hpath with
  | nil o => exact .nil _
  | cons head _ ih => exact .cons (h.lexeme? head) ih

end Source.Island

namespace Source

theorem Reads.congr {xs : List Lexeme} (h : s.Reads o xs) (heq : s.skipBlanks o = s.skipBlanks o') :
    s.Reads o' xs := by
  cases xs with
  | nil =>
      rw [Reads.nil_iff, isSpent] at h ⊢
      rwa [← heq]
  | cons x xs =>
      rw [Reads.cons_iff] at h ⊢
      rwa [← lexeme?_congr heq]

theorem Path.reads {xs ys : List Lexeme} (h : s.Path o xs o') (hys : s.Reads o' ys) :
    s.Reads o (xs ++ ys) := by
  obtain ⟨m, hpath, hm⟩ := hys
  exact ⟨m, h.append hpath, hm⟩

/-! ## Texts put together -/

variable {u v : String} {xs ys : List Lexeme}

theorem size_append (u v : String) : size ⟨u ++ v⟩ = u.utf8ByteSize + v.utf8ByteSize :=
  String.utf8ByteSize_append

/-- The first of two texts ends where they meet. -/
theorem island_left (h : Seam ⟨u ++ v⟩ u.utf8ByteSize) : Island ⟨u ++ v⟩ 0 ⟨u⟩ := by
  refine ⟨⟨slice?_iff_append.2 ⟨"", v, by simp, rfl, ?_⟩⟩, seam_zero _, ?_⟩
  · rw [String.empty_append, Nat.zero_add]
    rfl
  · rw [Nat.zero_add]
    exact h

/-- And the second begins there. -/
theorem island_right (h : Seam ⟨u ++ v⟩ u.utf8ByteSize) :
    Island ⟨u ++ v⟩ u.utf8ByteSize ⟨v⟩ := by
  refine ⟨⟨slice?_iff_append.2 ⟨u, "", by simp, rfl, ?_⟩⟩, h, ?_⟩
  · exact String.utf8ByteSize_append
  · intro _
    have hnone : byte? ⟨u ++ v⟩ (u.utf8ByteSize + size ⟨v⟩) = none :=
      byte?_eq_none (Nat.le_of_eq (size_append u v))
    rw [byteIn, hnone]
    rfl

/-- A source that is one and then another, with seams at both, and between them nothing but
blanks. -/
structure Joint (s t : Source) (d : Nat) (r : Source) : Prop where
  left : s.Island 0 t
  right : s.Island d r
  between : s.skipBlanks t.size = s.skipBlanks d
  whole : d + r.size = s.size

theorem joint_of_seam (h : Seam ⟨u ++ v⟩ u.utf8ByteSize) :
    Joint ⟨u ++ v⟩ ⟨u⟩ u.utf8ByteSize ⟨v⟩ :=
  ⟨island_left h, island_right h, rfl, (size_append u v).symm⟩

/-- Behind the second of them nothing is left. -/
theorem Joint.isSpent {r : Source} (h : s.Joint t d r) (hle : o ≤ r.size)
    (hspent : r.isSpent o = true) : s.isSpent (d + o) = true := by
  rw [Source.isSpent, h.right.toPiece.skipBlanks_of_isSpent hle hspent, h.whole]
  exact decide_eq_true (s.le_skipBlanks _)

/-- Such a source is read as the one and then the other. -/
theorem Joint.reads {r : Source} (h : s.Joint t d r) (ht : t.Reads 0 xs) (hr : r.Reads 0 ys) :
    s.Reads 0 (xs ++ ys.map (Lexeme.shift d)) := by
  obtain ⟨m, hm, hmspent⟩ := ht
  obtain ⟨n, hn, hnspent⟩ := hr
  have hleft := h.left.path hm
  have hright := h.right.path hn
  have hseam := h.left.toPiece.skipBlanks_of_isSpent (hm.le_size (Nat.zero_le _)) hmspent
  simp only [Nat.zero_add, Nat.add_zero] at hleft hright hseam
  rw [Lexeme.shift_zero, List.map_id] at hleft
  exact hleft.reads (Reads.congr ⟨_, hright, h.isSpent (hn.le_size (Nat.zero_le _)) hnspent⟩
    (hseam.trans h.between).symm)

/-- Two texts with a seam between are read as the one and then the other. -/
theorem Reads.append (hu : Reads ⟨u⟩ 0 xs) (hv : Reads ⟨v⟩ 0 ys)
    (h : Seam ⟨u ++ v⟩ u.utf8ByteSize) :
    Reads ⟨u ++ v⟩ 0 (xs ++ ys.map (Lexeme.shift u.utf8ByteSize)) :=
  (joint_of_seam h).reads hu hv

end Source

/-! ## Blanks -/

/-- A text of nothing but blanks. -/
def Blank (text : String) : Prop :=
  ∀ b ∈ bytesOf text, ByteClass.isBlank b = true

instance (text : String) : Decidable (Blank text) :=
  inferInstanceAs (Decidable (∀ b ∈ bytesOf text, ByteClass.isBlank b = true))

theorem ByteClass.not_isNameByte_of_isBlank :
    ∀ {b : UInt8}, isBlank b = true → isNameByte b = false := by
  decide +kernel

namespace Source

variable {u v g : String}

theorem byte?_append_left {i : Nat} (hi : i < u.utf8ByteSize) :
    byte? ⟨u ++ v⟩ i = (bytesOf u)[i]? := by
  have hlt : i < (bytesOf u).length := hi
  rw [byte?_eq_getElem?, bytesOf_append, List.getElem?_append_left hlt]

theorem byte?_append_right (i : Nat) :
    byte? ⟨u ++ v⟩ (u.utf8ByteSize + i) = (bytesOf v)[i]? := by
  rw [byte?_eq_getElem?, bytesOf_append, ← length_bytesOf u,
    List.getElem?_append_right (Nat.le_add_right _ _), Nat.add_sub_cancel_left]

/-- Where blanks begin is a seam, and where the source ends. -/
theorem seam_of_blank_behind (hg : Blank g) (h : g ≠ "" ∨ v = "") :
    Seam ⟨u ++ (g ++ v)⟩ u.utf8ByteSize := by
  intro _
  rw [Bool.eq_false_iff]
  intro hname
  obtain ⟨b, hb, hb'⟩ := byteIn_iff.1 hname
  have hbyte := byte?_append_right (u := u) (v := g ++ v) 0
  rw [Nat.add_zero, hb, bytesOf_append] at hbyte
  rcases hbytes : bytesOf g with _ | ⟨c, cs⟩
  · have hempty : g = "" := bytesOf_injective hbytes
    rcases h with h | rfl
    · exact h hempty
    · subst hempty
      cases hbyte
  · rw [hbytes, List.cons_append, List.getElem?_cons_zero] at hbyte
    cases hbyte
    rw [ByteClass.not_isNameByte_of_isBlank (hg b (hbytes ▸ List.mem_cons_self))] at hb'
    cases hb'

/-- Where blanks end is a seam, and where the source begins. -/
theorem seam_of_blank_before (hg : Blank g) (h : g ≠ "" ∨ u = "") :
    Seam ⟨u ++ g ++ v⟩ (u ++ g).utf8ByteSize := by
  intro hbefore
  exfalso
  rw [nameByteBefore, Bool.and_eq_true, decide_eq_true_eq] at hbefore
  obtain ⟨hpos, hname⟩ := hbefore
  obtain ⟨b, hb, hb'⟩ := byteIn_iff.1 hname
  rw [byte?_append_left (by omega)] at hb
  have hne : g ≠ "" := by
    rcases h with h | rfl
    · exact h
    · intro hempty
      subst hempty
      exact absurd hpos (by decide)
  have hlen : 0 < (bytesOf g).length :=
    List.length_pos_iff.2 fun hnil => hne (bytesOf_injective hnil)
  have hlast : (u ++ g).utf8ByteSize - 1 =
      (bytesOf u).length + ((bytesOf g).length - 1) := by
    rw [String.utf8ByteSize_append, ← length_bytesOf, ← length_bytesOf]
    omega
  rw [hlast, bytesOf_append, List.getElem?_append_right (Nat.le_add_right _ _),
    Nat.add_sub_cancel_left] at hb
  rw [ByteClass.not_isNameByte_of_isBlank (hg b (List.mem_of_getElem? hb))] at hb'
  cases hb'

/-- There is nothing to be read in blanks. -/
theorem reads_of_blank (hg : Blank g) : Reads ⟨g⟩ 0 [] := by
  rw [Reads.nil_iff, isSpent, decide_eq_true_eq]
  by_contra hlt
  have hout := not_byteIn_skipWhile ⟨g⟩ ByteClass.isBlank 0
  rw [← skipBlanks] at hout
  have hi : skipBlanks ⟨g⟩ 0 < (bytesOf g).length := Nat.lt_of_not_le hlt
  rw [byteIn, byte?_eq_getElem?, List.getElem?_eq_getElem hi, Option.any_some,
    hg _ (List.getElem_mem hi)] at hout
  cases hout

/-- Two texts may be joined by any blanks, as long as there are some. -/
theorem joint_of_blank (hg : Blank g) (h : g ≠ "") :
    Joint ⟨u ++ g ++ v⟩ ⟨u⟩ (u ++ g).utf8ByteSize ⟨v⟩ := by
  have hassoc : u ++ g ++ v = u ++ (g ++ v) := String.append_assoc
  refine ⟨?_, island_right (seam_of_blank_before hg (.inl h)), ?_, (size_append ..).symm⟩
  · rw [hassoc]
    exact island_left (seam_of_blank_behind hg (.inl h))
  · have hpiece : Piece ⟨u ++ g ++ v⟩ u.utf8ByteSize ⟨g⟩ :=
      ⟨slice?_iff_append.2 ⟨u, v, rfl, rfl, String.utf8ByteSize_append⟩⟩
    rw [String.utf8ByteSize_append]
    exact hpiece.skipBlanks_of_isSpent (Nat.zero_le _) (Reads.nil_iff.1 (reads_of_blank hg))

end Source

end WeLang
