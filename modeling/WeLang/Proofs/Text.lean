import WeLang.Lexis.Word

/-!
# Bytes, boundaries and text

A source is looked at in two ways: by byte, which is what the rules do, and by
text, which is what tokens carry. This file ties the two together, so that
nothing after it needs to know how a string is stored.

The link is `bytesOf`: a source's bytes are a list, `byte?` is its lookup, and
`slice?` answers with the text whose bytes are a segment of that list, provided
that both ends are boundaries. A boundary is recognised by the byte that follows
it, and an ASCII byte has a boundary on either side. All that a rule matches
begins and ends with an ASCII byte, which is why no rule ever cuts a character.
-/

namespace WeLang

/-! ## Texts as lists of bytes -/

theorem length_bytesOf (text : String) : (bytesOf text).length = text.utf8ByteSize :=
  rfl

theorem bytesOf_injective {t u : String} (h : bytesOf t = bytesOf u) : t = u :=
  String.toByteArray_inj.1 (ByteArray.ext (Array.ext' h))

namespace Source

theorem byte?_eq_getElem? (s : Source) (i : Nat) : s.byte? i = (bytesOf s.text)[i]? := by
  rw [byte?]
  split
  · next h =>
      have hi : i < (bytesOf s.text).length := h
      rw [List.getElem?_eq_getElem hi]
      rfl
  · next h =>
      have hi : (bytesOf s.text).length ≤ i := Nat.le_of_not_lt h
      rw [List.getElem?_eq_none hi]

theorem hasBytes_iff {s : Source} {bs : List UInt8} {pos : Nat} :
    s.hasBytes bs pos = true ↔ pos ≤ s.size ∧ bs <+: (bytesOf s.text).drop pos := by
  induction bs generalizing pos with
  | nil => simp [hasBytes]
  | cons b bs ih =>
      rw [hasBytes, Bool.and_eq_true, ih, beq_iff_eq, byte?_eq_getElem?]
      constructor
      · intro h
        obtain ⟨hb, _, hbs⟩ := h
        obtain ⟨hlt, hget⟩ := List.getElem?_eq_some_iff.1 hb
        refine ⟨Nat.le_of_lt hlt, ?_⟩
        rw [List.drop_eq_getElem_cons hlt, hget]
        exact (List.prefix_cons_inj b).2 hbs
      · intro h
        obtain ⟨_, hbs⟩ := h
        have hlt : pos < (bytesOf s.text).length := by
          have := hbs.length_le
          simp only [List.length_cons, List.length_drop] at this
          omega
        rw [List.drop_eq_getElem_cons hlt, List.cons_prefix_cons] at hbs
        exact ⟨List.getElem?_eq_some_iff.2 ⟨hlt, hbs.1.symm⟩, hlt, hbs.2⟩

/-! ## Boundaries -/

/-- An offset between two characters, or at either end. -/
def Boundary (s : Source) (i : Nat) : Prop :=
  String.Pos.Raw.IsValid s.text ⟨i⟩

theorem Boundary.le_size {s : Source} {i : Nat} (h : s.Boundary i) : i ≤ s.size :=
  h.le_rawEndPos

theorem boundary?_eq_some {s : Source} {i : Nat} {p : s.text.Pos} :
    s.boundary? i = some p ↔ p.offset.byteIdx = i := by
  rw [boundary?]
  constructor
  · intro h
    split at h
    · cases h
      rfl
    · cases h
  · intro heq
    subst heq
    rw [dif_pos (String.Pos.Raw.isValid_eq_true_iff.2 p.isValid)]

theorem boundary_iff_isSome {s : Source} {i : Nat} :
    s.Boundary i ↔ (s.boundary? i).isSome = true := by
  rw [Option.isSome_iff_exists]
  constructor
  · intro h
    exact ⟨⟨⟨i⟩, h⟩, boundary?_eq_some.2 rfl⟩
  · intro hex
    obtain ⟨p, hp⟩ := hex
    obtain rfl := boundary?_eq_some.1 hp
    exact p.isValid

/-- A boundary shows in the byte behind it: none, or the first of a character. -/
theorem boundary_iff_byte {s : Source} {i : Nat} :
    s.Boundary i ↔ i = s.size ∨ ∃ b, s.byte? i = some b ∧ b.IsUTF8FirstByte := by
  rw [Boundary]
  rw [String.Pos.Raw.isValid_iff_isUTF8FirstByte]
  constructor
  · intro h
    rcases h with h | ⟨h, hb⟩
    · exact .inl (congrArg String.Pos.Raw.byteIdx h)
    · exact .inr ⟨_, dif_pos (c := i < s.size) h, hb⟩
  · intro h
    rcases h with h | ⟨b, hb, hf⟩
    · exact .inl (congrArg String.Pos.Raw.mk h)
    · have hi := lt_size_of_byte? hb
      rw [byte?, dif_pos hi] at hb
      cases hb
      exact .inr ⟨hi, hf⟩

theorem boundary_of_ascii {s : Source} {i : Nat} {b : UInt8} (hb : s.byte? i = some b)
    (h : b &&& 0x80 = 0) : s.Boundary i :=
  boundary_iff_byte.2 (.inr ⟨b, hb, .inl h⟩)

theorem boundary_succ_of_ascii {s : Source} {i : Nat} {b : UInt8} (hb : s.byte? i = some b)
    (h : b &&& 0x80 = 0) : s.Boundary (i + 1) := by
  have hi := lt_size_of_byte? hb
  let p : s.text.Pos := ⟨⟨i⟩, boundary_of_ascii hb h⟩
  have hp : p ≠ s.text.endPos := by
    intro he
    have : i = s.size := congrArg (fun q => q.offset.byteIdx) he
    omega
  have hbyte : p.byte hp = b := by
    rw [← String.Pos.getUTF8Byte_offset (h := hi)]
    rw [byte?, dif_pos hi] at hb
    exact Option.some.inj hb
  have hsize : (p.get hp).utf8Size = 1 := by
    rw [← String.Pos.utf8ByteSize_byte, UInt8.utf8ByteSize]
    exact if_pos (hbyte ▸ h)
  have hnext : (p.next hp).offset = ⟨i + 1⟩ := by
    rw [String.Pos.offset_next]
    exact String.Pos.Raw.ext (congrArg (i + ·) hsize)
  have := (p.next hp).isValid
  rwa [hnext] at this

/-! ## Characters and slices -/

theorem char?_isSome {s : Source} {i : Nat} :
    (s.char? i).isSome = true ↔ s.Boundary i ∧ i < s.size := by
  rw [char?]
  cases hp : s.boundary? i with
  | none =>
      have : ¬ s.Boundary i := by simp [boundary_iff_isSome, hp]
      simp [this]
  | some p =>
      have hb : s.Boundary i := by simp [boundary_iff_isSome, hp]
      obtain rfl := boundary?_eq_some.1 hp
      have hlt : p = s.text.endPos ↔ ¬ p.offset.byteIdx < s.size := by
        have := hb.le_size
        rw [String.Pos.ext_iff, String.Pos.Raw.ext_iff]
        change p.offset.byteIdx = s.size ↔ _
        omega
      simp only [hb, true_and]
      split
      · next h => simp [hlt.1 h]
      · next h => simpa [hlt] using h

theorem slice?_eq_some {s : Source} {start stop : Nat} {text : String} :
    s.slice? start stop = some text ↔
      s.Boundary start ∧ s.Boundary stop ∧ start ≤ stop ∧
        bytesOf text = ((bytesOf s.text).drop start).take (stop - start) := by
  rw [slice?]
  cases hp : s.boundary? start with
  | none =>
      have : ¬ s.Boundary start := by simp [boundary_iff_isSome, hp]
      simp [this]
  | some p =>
      cases hq : s.boundary? stop with
      | none =>
          have : ¬ s.Boundary stop := by simp [boundary_iff_isSome, hq]
          simp [this]
      | some q =>
          have hstart : s.Boundary start := by simp [boundary_iff_isSome, hp]
          have hstop : s.Boundary stop := by simp [boundary_iff_isSome, hq]
          obtain rfl := boundary?_eq_some.1 hp
          obtain rfl := boundary?_eq_some.1 hq
          have hbytes : bytesOf (s.text.extract p q) =
              ((bytesOf s.text).drop p.offset.byteIdx).take
                (q.offset.byteIdx - p.offset.byteIdx) := by
            simp [bytesOf, String.toByteArray_extract]
          simp only [hstart, hstop, true_and]
          split
          · next hle =>
              simp only [hle, true_and, Option.some.injEq]
              constructor
              · intro heq
                subst heq
                exact hbytes
              · intro h
                exact bytesOf_injective (hbytes.trans h.symm)
          · next hle => simp [hle]

/-- A text stands between two boundaries if its bytes stand at the first and it
has the right size. -/
theorem slice?_iff_hasBytes {s : Source} {start stop : Nat} {text : String}
    (hstart : s.Boundary start) (hstop : s.Boundary stop) :
    s.slice? start stop = some text ↔
      s.hasBytes (bytesOf text) start = true ∧ stop = start + text.utf8ByteSize := by
  have hle : stop ≤ (bytesOf s.text).length := hstop.le_size
  rw [slice?_eq_some, hasBytes_iff, ← length_bytesOf]
  constructor
  · intro h
    obtain ⟨_, _, hord, hbytes⟩ := h
    refine ⟨⟨hstart.le_size, hbytes ▸ List.take_prefix ..⟩, ?_⟩
    rw [hbytes, List.length_take, List.length_drop]
    omega
  · intro h
    obtain ⟨⟨_, hpre⟩, rfl⟩ := h
    refine ⟨hstart, hstop, Nat.le_add_right .., ?_⟩
    rw [Nat.add_sub_cancel_left]
    exact List.prefix_iff_eq_take.1 hpre

end Source

/-! ## Parts of a text -/

theorem bytesOf_append (t u : String) : bytesOf (t ++ u) = bytesOf t ++ bytesOf u := by
  simp [bytesOf, String.toByteArray_append]

/-- Texts of the same size with which one text begins are the same. -/
theorem eq_of_append_eq_append {t t' u u' : String} (h : t ++ u = t' ++ u')
    (hsize : t.utf8ByteSize = t'.utf8ByteSize) : t = t' ∧ u = u' := by
  have hbytes := congrArg bytesOf h
  rw [bytesOf_append, bytesOf_append] at hbytes
  obtain ⟨ht, hu⟩ := List.append_inj hbytes hsize
  exact ⟨bytesOf_injective ht, bytesOf_injective hu⟩

namespace Source

variable {s : Source} {start stop i j k : Nat} {t u text : String}

/-- A boundary divides the text. -/
theorem boundary_iff_append :
    s.Boundary i ↔ ∃ t u, s.text = t ++ u ∧ t.utf8ByteSize = i := by
  rw [Boundary, String.Pos.Raw.isValid_iff_exists_append]
  constructor
  · intro h
    obtain ⟨t, u, htext, hi⟩ := h
    exact ⟨t, u, htext, (congrArg String.Pos.Raw.byteIdx hi).symm⟩
  · intro h
    obtain ⟨t, u, htext, hi⟩ := h
    exact ⟨t, u, htext, congrArg String.Pos.Raw.mk hi.symm⟩

/-- What is between two boundaries is a part of the text. -/
theorem slice?_iff_append :
    s.slice? start stop = some text ↔
      ∃ t u, s.text = t ++ text ++ u ∧ t.utf8ByteSize = start ∧
        (t ++ text).utf8ByteSize = stop := by
  rw [slice?_eq_some]
  constructor
  · intro h
    obtain ⟨hstart, hstop, hle, hbytes⟩ := h
    obtain ⟨t, r, htr, ht⟩ := boundary_iff_append.1 hstart
    obtain ⟨t', u, htu, ht'⟩ := boundary_iff_append.1 hstop
    suffices t' = t ++ text by
      subst this
      exact ⟨t, u, htu, ht, ht'⟩
    apply bytesOf_injective
    have hdrop : (bytesOf s.text).drop start = bytesOf r := by
      rw [htr, bytesOf_append, ← ht, ← length_bytesOf, List.drop_left]
    have htake : (bytesOf s.text).take stop = bytesOf t' := by
      rw [htu, bytesOf_append, ← ht', ← length_bytesOf, List.take_left]
    rw [bytesOf_append, hbytes, hdrop, ← htake, htr, bytesOf_append, List.take_append,
      length_bytesOf, ht, List.take_of_length_le (by rw [length_bytesOf]; omega)]
  · intro h
    obtain ⟨t, u, htext, rfl, rfl⟩ := h
    refine ⟨boundary_iff_append.2 ⟨t, text ++ u, by rw [htext, String.append_assoc], rfl⟩,
      boundary_iff_append.2 ⟨t ++ text, u, htext, rfl⟩, ?_, ?_⟩
    · rw [String.utf8ByteSize_append]
      omega
    · rw [htext, bytesOf_append, bytesOf_append, String.utf8ByteSize_append, List.append_assoc,
        ← length_bytesOf t, List.drop_left, Nat.add_sub_cancel_left, ← length_bytesOf text,
        List.take_left]

theorem exists_slice? (hstart : s.Boundary start) (hstop : s.Boundary stop) (hle : start ≤ stop) :
    ∃ text, s.slice? start stop = some text := by
  obtain ⟨p, hp⟩ := Option.isSome_iff_exists.1 (boundary_iff_isSome.1 hstart)
  obtain ⟨q, hq⟩ := Option.isSome_iff_exists.1 (boundary_iff_isSome.1 hstop)
  exact ⟨s.text.extract p q, by simp [slice?, hp, hq, hle]⟩

theorem slice?_append (h : s.slice? i j = some t) (h' : s.slice? j k = some u) :
    s.slice? i k = some (t ++ u) := by
  obtain ⟨a, b, hab, ha, hat⟩ := slice?_iff_append.1 h
  obtain ⟨a', b', hab', ha', hau⟩ := slice?_iff_append.1 h'
  obtain ⟨rfl, rfl⟩ := eq_of_append_eq_append
    (by rw [← hab, hab', String.append_assoc]) (hat.trans ha'.symm)
  exact slice?_iff_append.2 ⟨a, b', by simp only [hab', String.append_assoc], ha,
    by rw [← String.append_assoc, hau]⟩

theorem size_of_slice? (h : s.slice? i j = some t) : i + t.utf8ByteSize = j := by
  obtain ⟨a, _, _, ha, hj⟩ := slice?_iff_append.1 h
  rw [← ha, ← hj, String.utf8ByteSize_append]

theorem slice?_of_char? {c : Char} (h : s.char? i = some c) :
    s.slice? i (i + c.utf8Size) = some c.toString := by
  rw [char?] at h
  split at h
  · next p hp =>
      obtain rfl := boundary?_eq_some.1 hp
      split at h
      · cases h
      · next hend =>
          cases h
          obtain ⟨rest, hrest⟩ := p.splits.exists_eq_singleton_append hend
          have hsize := congrArg String.Pos.Raw.byteIdx p.splits.offset_eq_rawEndPos
          refine slice?_iff_append.2 ⟨_, rest, ?_, hsize.symm, ?_⟩
          · rw [String.append_assoc]
            exact p.splits.eq_append.trans (congrArg _ hrest)
          · rw [String.utf8ByteSize_append, Char.toString, String.utf8ByteSize_singleton]
            exact congrArg (· + _) hsize.symm
  · cases h

theorem boundary_zero (s : Source) : s.Boundary 0 :=
  boundary_iff_append.2 ⟨"", s.text, (String.empty_append ..).symm, rfl⟩

theorem boundary_size (s : Source) : s.Boundary s.size :=
  boundary_iff_append.2 ⟨s.text, "", (String.append_empty ..).symm, rfl⟩

end Source

end WeLang
