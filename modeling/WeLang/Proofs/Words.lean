import WeLang.Lexis.Rule
import WeLang.Proofs.Text

/-!
# Names and reserved words

Three rules look at the same stretch of name bytes: the one for reserved words,
the one for names, and the one that finds a reserved word glued to what comes
before it. Each looks at it in its own way, the first by comparing bytes, the
second by looking the text up in a list, the third by trying every reserved word.

`wordAt_eq` brings them under one roof. Whatever is asked, the answer depends on
three things only: the longest name that starts at the offset, its text, and
whether a name byte comes before. That the three rules never contradict each
other is then a matter of propositional logic.
-/

namespace WeLang

/-! ## Bytes -/

namespace ByteClass

/-- A question about all bytes is 256 questions. -/
instance decidableForall {p : UInt8 → Prop} [DecidablePred p] : Decidable (∀ b, p b) :=
  decidable_of_iff (∀ n : Fin 256, p (.ofFin n)) ⟨fun h b => h b.toFin, fun h _ => h _⟩

theorem ascii_of_isNameByte : ∀ {b : UInt8}, isNameByte b = true → b &&& 0x80 = 0 := by
  decide +kernel

theorem ascii_of_isBlank : ∀ {b : UInt8}, isBlank b = true → b &&& 0x80 = 0 := by
  decide +kernel

end ByteClass

namespace Source

variable {s : Source} {p : UInt8 → Bool}

theorem byteIn_iff {i : Nat} : s.byteIn p i = true ↔ ∃ b, s.byte? i = some b ∧ p b = true :=
  Option.any_eq_true ..

theorem byteIn_skipWhile {pos i : Nat} (hle : pos ≤ i) (hlt : i < s.skipWhile p pos) :
    s.byteIn p i = true := by
  fun_induction skipWhile s p pos with
  | case1 pos h ih =>
      rcases Nat.eq_or_lt_of_le hle with rfl | hlt'
      · exact h
      · exact ih hlt' hlt
  | case2 pos _ => omega

theorem skipWhile_eq {pos stop : Nat} (hle : pos ≤ stop)
    (hin : ∀ i, pos ≤ i → i < stop → s.byteIn p i = true) (hout : s.byteIn p stop = false) :
    s.skipWhile p pos = stop := by
  have hfrom := s.le_skipWhile p pos
  rcases Nat.lt_trichotomy (s.skipWhile p pos) stop with hlt | heq | hlt
  · have hnot := s.not_byteIn_skipWhile p pos
    rw [hin _ hfrom hlt] at hnot
    cases hnot
  · exact heq
  · rw [byteIn_skipWhile hle hlt] at hout
    cases hout

theorem boundary_of_nameByte {i : Nat} (h : s.byteIn ByteClass.isNameByte i = true) :
    s.Boundary i := by
  obtain ⟨b, hb, hn⟩ := byteIn_iff.1 h
  exact boundary_of_ascii hb (ByteClass.ascii_of_isNameByte hn)

theorem boundary_after_nameByte {i : Nat} (h : s.byteIn ByteClass.isNameByte i = true) :
    s.Boundary (i + 1) := by
  obtain ⟨b, hb, hn⟩ := byteIn_iff.1 h
  exact boundary_succ_of_ascii hb (ByteClass.ascii_of_isNameByte hn)

theorem hasBytes_byteIn {bs : List UInt8} {pos : Nat} (h : s.hasBytes bs pos = true)
    (hp : ∀ b ∈ bs, p b = true) {i : Nat} (hle : pos ≤ i) (hlt : i < pos + bs.length) :
    s.byteIn p i = true := by
  obtain ⟨_, hpre⟩ := hasBytes_iff.1 h
  obtain ⟨rest, hrest⟩ := hpre
  have hget : s.byte? i = bs[i - pos]? := by
    have hi : pos + (i - pos) = i := by omega
    rw [byte?_eq_getElem?, ← hi, ← List.getElem?_drop, ← hrest,
      List.getElem?_append_left (by omega)]
    congr 1
    omega
  have hidx : i - pos < bs.length := by omega
  rw [List.getElem?_eq_getElem hidx] at hget
  exact byteIn_iff.2 ⟨_, hget, hp _ (List.getElem_mem hidx)⟩

end Source

/-! ## Names -/

namespace Literal

variable {s : Source} {start stop : Nat}

theorem name_eq_some :
    name s start = some stop ↔
      s.byteIn ByteClass.isAlphabetic start = true ∧ start < stop ∧
        (∀ i, start ≤ i → i < stop → s.byteIn ByteClass.isNameByte i = true) ∧
          s.byteIn ByteClass.isNameByte stop = false := by
  rw [name]
  constructor
  · intro h
    split at h
    · next ha =>
        cases h
        refine ⟨ha, s.le_skipWhile _ _, ?_, s.not_byteIn_skipWhile _ _⟩
        intro i hle hlt
        rcases Nat.eq_or_lt_of_le hle with rfl | hlt'
        · obtain ⟨b, hb, hab⟩ := Source.byteIn_iff.1 ha
          exact Source.byteIn_iff.2 ⟨b, hb, ByteClass.isNameByte_of_isAlphabetic hab⟩
        · exact Source.byteIn_skipWhile hlt' hlt
    · cases h
  · intro hand
    obtain ⟨ha, hlt, hin, hout⟩ := hand
    rw [if_pos ha]
    exact congrArg some (Source.skipWhile_eq hlt (fun i hi => hin i (Nat.le_of_succ_le hi)) hout)

theorem boundaries_of_name (h : name s start = some stop) :
    s.Boundary start ∧ s.Boundary stop ∧ start < stop := by
  obtain ⟨_, hlt, hin, _⟩ := name_eq_some.1 h
  have hlast : s.Boundary (stop - 1 + 1) :=
    Source.boundary_after_nameByte (hin (stop - 1) (by omega) (by omega))
  rw [Nat.sub_add_cancel (by omega)] at hlast
  exact ⟨Source.boundary_of_nameByte (hin start (Nat.le_refl _) hlt), hlast, hlt⟩

/-- A name has a text. -/
theorem exists_slice?_of_name (h : name s start = some stop) :
    ∃ text, s.slice? start stop = some text := by
  obtain ⟨hstart, hstop, hlt⟩ := boundaries_of_name h
  exact Source.exists_slice? hstart hstop (Nat.le_of_lt hlt)

end Literal

/-! ## Reserved words -/

theorem Keyword.isNameByte_of_mem_spelling (w : Keyword) :
    ∀ b ∈ bytesOf w.spelling, ByteClass.isNameByte b = true := by
  cases w <;> decide +kernel

theorem Keyword.spelling_head (w : Keyword) :
    ∃ b bs, bytesOf w.spelling = b :: bs ∧ ByteClass.isAlphabetic b = true := by
  cases w <;> exact ⟨_, _, rfl, by decide⟩

namespace Source

variable {s : Source} {start stop : Nat}

/-- Where a reserved word stands and no name byte follows, it is the longest name
there. -/
theorem name_of_hasBytes {w : Keyword} (h : s.hasBytes (bytesOf w.spelling) start = true)
    (hout : s.byteIn ByteClass.isNameByte (start + w.spelling.utf8ByteSize) = false) :
    Literal.name s start = some (start + w.spelling.utf8ByteSize) := by
  obtain ⟨b, bs, hbs, halpha⟩ := w.spelling_head
  have hhead : s.byte? start = some b := by
    rw [hbs, hasBytes, Bool.and_eq_true] at h
    exact eq_of_beq h.1
  refine Literal.name_eq_some.2 ⟨byteIn_iff.2 ⟨b, hhead, halpha⟩, ?_, ?_, hout⟩
  · rw [← length_bytesOf, hbs, List.length_cons]
    omega
  · intro i hle hlt
    exact hasBytes_byteIn h w.isNameByte_of_mem_spelling hle hlt

/-- How a reserved word stands at an offset, told by the name that starts there. -/
theorem wordAt_eq (s : Source) (start : Nat) (w : Keyword) :
    s.wordAt start w.spelling =
      match Literal.name s start with
      | none => .absent
      | some stop =>
          if s.slice? start stop = some w.spelling then
            if s.nameByteBefore start then .glued else .whole stop
          else .absent := by
  rw [wordAt]
  cases hname : Literal.name s start with
  | none =>
      simp only []
      split
      · rfl
      · next hhas =>
          split
          · rfl
          · next hout =>
              rw [name_of_hasBytes (by simpa using hhas) (by simpa using hout)] at hname
              cases hname
  | some stop =>
      obtain ⟨hb, hb', _⟩ := Literal.boundaries_of_name hname
      obtain ⟨_, _, hin, hout⟩ := Literal.name_eq_some.1 hname
      simp only []
      by_cases hs : s.slice? start stop = some w.spelling
      · obtain ⟨hhas, rfl⟩ := (slice?_iff_hasBytes hb hb').1 hs
        simp [hs, hhas, hout]
      · rw [if_neg hs]
        split
        · rfl
        · next hhas =>
            split
            · rfl
            · next hout' =>
                have hhas : s.hasBytes (bytesOf w.spelling) start = true := by simpa using hhas
                have heq := name_of_hasBytes hhas (by simpa using hout')
                obtain rfl := Option.some.inj (hname.symm.trans heq)
                exact absurd ((slice?_iff_hasBytes hb hb').2 ⟨hhas, rfl⟩) hs

theorem wordAt_eq_glued {w : Keyword} :
    s.wordAt start w.spelling = .glued ↔
      ∃ stop, Literal.name s start = some stop ∧ s.slice? start stop = some w.spelling ∧
        s.nameByteBefore start = true := by
  rw [wordAt_eq]
  cases Literal.name s start with
  | none => simp
  | some stop =>
      simp only [Option.some.injEq, exists_eq_left']
      by_cases hs : s.slice? start stop = some w.spelling <;>
        by_cases hb : s.nameByteBefore start = true <;> simp [hs, hb]

theorem wordAt_eq_whole {w : Keyword} :
    s.wordAt start w.spelling = .whole stop ↔
      Literal.name s start = some stop ∧ s.slice? start stop = some w.spelling ∧
        s.nameByteBefore start = false := by
  rw [wordAt_eq]
  cases Literal.name s start with
  | none => simp
  | some stop' =>
      simp only [Option.some.injEq]
      by_cases hs : s.slice? start stop' = some w.spelling
      · by_cases hb : s.nameByteBefore start = true
        · simp [hs, hb]
        · simp only [hs, hb, if_true, if_false, WordMatch.whole.injEq, Bool.false_eq_true]
          constructor
          · intro heq
            subst heq
            exact ⟨rfl, hs, trivial⟩
          · exact And.left
      · simp only [hs, if_false, reduceCtorEq, false_iff, not_and]
        intro heq h
        subst heq
        exact absurd h hs

theorem gluedKeyword?_eq_some {w : Keyword} :
    s.gluedKeyword? start = some w ↔
      ∃ stop, Literal.name s start = some stop ∧ s.slice? start stop = some w.spelling ∧
        s.nameByteBefore start = true := by
  have hfound {v : Keyword} (h : s.gluedKeyword? start = some v) :
      s.wordAt start v.spelling = .glued := by
    have := List.find?_some h
    exact eq_of_beq this
  constructor
  · intro h
    exact wordAt_eq_glued.1 (hfound h)
  · intro h
    obtain ⟨v, hv⟩ : ∃ v, s.gluedKeyword? start = some v := by
      rw [← Option.isSome_iff_exists, gluedKeyword?, List.find?_isSome]
      exact ⟨w, w.mem_all, beq_iff_eq.2 (wordAt_eq_glued.2 h)⟩
    -- Both words are the text of the one name that starts here.
    obtain ⟨stop, hname, hslice, _⟩ := h
    obtain ⟨stop', hname', hslice', _⟩ := wordAt_eq_glued.1 (hfound hv)
    obtain rfl := Option.some.inj (hname.symm.trans hname')
    rw [hv, Keyword.spelling_injective (Option.some.inj (hslice'.symm.trans hslice))]

end Source

theorem Keyword.rule_eq_some {s : Source} {start stop : Nat} {w : Keyword} :
    w.rule s start = some stop ↔
      Literal.name s start = some stop ∧ s.slice? start stop = some w.spelling ∧
        s.nameByteBefore start = false := by
  rw [← Source.wordAt_eq_whole]
  rw [Keyword.rule, Source.wholeWord?]
  cases s.wordAt start w.spelling <;> simp

theorem nameRule_eq_some {s : Source} {start stop : Nat} :
    nameRule s start = some stop ↔
      Literal.name s start = some stop ∧
        ∀ w : Keyword, s.slice? start stop = some w.spelling → s.nameByteBefore start = true := by
  rw [nameRule]
  cases hname : Literal.name s start with
  | none => simp
  | some stop' =>
      obtain ⟨text, htext⟩ := Literal.exists_slice?_of_name hname
      simp only [Option.bind_eq_bind, Option.bind_some, htext]
      cases hw : Keyword.ofSpelling? text with
      | none =>
          simp only [Option.some.injEq, iff_self_and]
          intro heq w h
          subst heq
          have := Keyword.ofSpelling?_eq_some.2 (Option.some.inj (htext.symm.trans h))
          rw [hw] at this
          cases this
      | some w =>
          obtain rfl := Keyword.ofSpelling?_eq_some.1 hw
          simp only [Source.wordAt_eq_glued, Option.some.injEq, hname, exists_eq_left', htext,
            true_and]
          by_cases hb : s.nameByteBefore start = true
          · simp [hb]
          · simp only [hb, if_false, reduceCtorEq, false_iff, not_and, Bool.false_eq_true]
            intro heq h
            subst heq
            exact h w htext

/-- The collision of a name follows from its text: a name that is spelled like a
reserved word is glued, or it would not be a name. -/
theorem gluedKeyword?_of_nameRule {s : Source} {start stop : Nat} {text : String}
    (h : nameRule s start = some stop) (htext : s.slice? start stop = some text) :
    s.gluedKeyword? start = Keyword.ofSpelling? text := by
  obtain ⟨hname, hglued⟩ := nameRule_eq_some.1 h
  ext w
  rw [Source.gluedKeyword?_eq_some, Keyword.ofSpelling?_eq_some]
  constructor
  · intro hex
    obtain ⟨stop', hname', hslice, _⟩ := hex
    obtain rfl := Option.some.inj (hname.symm.trans hname')
    exact Option.some.inj (htext.symm.trans hslice)
  · intro heq
    subst heq
    exact ⟨stop, hname, htext, hglued w htext⟩

end WeLang
