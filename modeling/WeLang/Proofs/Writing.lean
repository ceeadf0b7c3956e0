import WeLang.Proofs.Gathering

/-!
# What is written, piece by piece

A source that is put together from texts has each of them as a piece, and a piece of which it
is known that no name goes on at its ends is read in the whole as it is read on its own. So of
a name, of a mark and of the text of a value it can be said what stands where it is written
(`Source.Island.name_lexeme?`, `Source.Piece.token`, `Source.Island.stands`).

Texts that are written one behind the other, with the same text between any two of them, stand
at places that are found by counting (`spread`). If each of them reads as something where it
stands, so does the whole row (`Source.led_of_piece`, `Source.joined_of_piece`).
-/

namespace WeLang

variable {s t : Source} {d o k : Nat} {text u g sep : String} {l l' : Limits}

/-- A text by which names are kept apart. -/
def Bare (text : String) : Prop :=
  text ≠ "" ∧ ∀ b ∈ bytesOf text, ByteClass.isNameByte b = false

instance (text : String) : Decidable (Bare text) :=
  inferInstanceAs (Decidable (text ≠ "" ∧ ∀ b ∈ bytesOf text, ByteClass.isNameByte b = false))

/-- A name that is not a reserved word. -/
def IsName (text : String) : Prop :=
  Literal.name ⟨text⟩ 0 = some text.utf8ByteSize ∧ Keyword.ofSpelling? text = none

instance (text : String) : Decidable (IsName text) :=
  inferInstanceAs (Decidable (_ ∧ _))

/-- A text that is parsed as a value, with what it is parsed as. -/
def ReadAs (l : Limits) (row : String × Parsed) : Prop :=
  parse .value ⟨row.1⟩ l = .ok row.2

namespace Source

/-! ## Pieces -/

theorem piece_whole (s : Source) : s.Piece 0 s := by
  refine ⟨slice?_iff_append.2 ⟨"", "", by simp, rfl, ?_⟩⟩
  rw [String.empty_append, Nat.zero_add]
  rfl

namespace Piece

theorem left (h : s.Piece d ⟨text ++ u⟩) : s.Piece d ⟨text⟩ := by
  obtain ⟨before, behind, hs, hbefore, -⟩ := slice?_iff_append.1 h.slice
  refine ⟨slice?_iff_append.2 ⟨before, u ++ behind, ?_, hbefore, ?_⟩⟩
  · rw [hs]
    simp only [String.append_assoc]
  · rw [String.utf8ByteSize_append, hbefore]
    rfl

theorem right (h : s.Piece d ⟨text ++ u⟩) : s.Piece (d + text.utf8ByteSize) ⟨u⟩ := by
  obtain ⟨before, behind, hs, hbefore, -⟩ := slice?_iff_append.1 h.slice
  refine ⟨slice?_iff_append.2 ⟨before ++ text, behind, ?_, ?_, ?_⟩⟩
  · rw [hs]
    simp only [String.append_assoc]
  · rw [String.utf8ByteSize_append, hbefore]
  · rw [String.utf8ByteSize_append, String.utf8ByteSize_append, hbefore]
    rfl

theorem behind (h : s.Piece 0 ⟨text ++ u⟩) : s.Piece text.utf8ByteSize ⟨u⟩ := by
  rw [← Nat.zero_add text.utf8ByteSize]
  exact h.right

theorem seam_before (h : s.Piece d ⟨g⟩) (hg : Bare g) : s.Seam d := by
  intro _
  obtain ⟨hne, hbytes⟩ := hg
  have hpos : 0 < size ⟨g⟩ := List.length_pos_iff.2 fun hnil => hne (bytesOf_injective hnil)
  rw [← Nat.add_zero d, ← h.byteIn hpos, Bool.eq_false_iff]
  intro hname
  obtain ⟨b, hb, hb'⟩ := byteIn_iff.1 hname
  rw [byte?_eq_getElem?] at hb
  rw [hbytes b (List.mem_of_getElem? hb)] at hb'
  cases hb'

theorem seam_behind (h : s.Piece d ⟨g⟩) (hg : Bare g) : s.Seam (d + g.utf8ByteSize) := by
  intro hbefore
  exfalso
  obtain ⟨hne, hbytes⟩ := hg
  have hpos : 0 < size ⟨g⟩ := List.length_pos_iff.2 fun hnil => hne (bytesOf_injective hnil)
  have hpos' : 0 < g.utf8ByteSize := hpos
  rw [Source.nameByteBefore, Bool.and_eq_true] at hbefore
  have hlast : s.byteIn ByteClass.isNameByte (d + (g.utf8ByteSize - 1)) = true := by
    rw [← Nat.add_sub_assoc hpos']
    exact hbefore.2
  rw [← h.byteIn (show g.utf8ByteSize - 1 < g.utf8ByteSize by omega)] at hlast
  obtain ⟨b, hb, hb'⟩ := byteIn_iff.1 hlast
  rw [byte?_eq_getElem?] at hb
  rw [hbytes b (List.mem_of_getElem? hb)] at hb'
  cases hb'

theorem gap (h : s.Piece d ⟨g⟩) (hg : Blank g) : s.Gap d (d + g.utf8ByteSize) :=
  h.skipBlanks_of_isSpent (Nat.zero_le _) (Reads.nil_iff.1 (reads_of_blank hg))

/-- A mark is read wherever it is written. -/
theorem token {m : Symbol} (h : s.Piece d ⟨m.char.toString⟩) :
    s.Token (.symbol m) d (d + 1) := by
  have hmark : Source.byte? ⟨m.char.toString⟩ 0 = some m.byte := by
    cases m <;> rfl
  have hbyte : s.byte? d = some m.byte := by
    rw [← Nat.add_zero d, ← h.byte? (lt_size_of_byte? hmark), hmark]
  have hskip : s.skipBlanks d = d := by
    refine skipWhile_of_not_byteIn ?_
    rw [Source.byteIn, hbyte, Option.any_some]
    cases m <;> decide
  refine ⟨⟨.symbol m, TokenKind.textOf (.symbol m) s ⟨d, d + 1⟩, ⟨d, d + 1⟩⟩, ?_, rfl, rfl⟩
  refine lexeme?_eq_some.2 ⟨hskip.symm, ?_, rfl⟩
  rw [hskip]
  exact congrArg Except.ok (byteRule_eq_some.2 ⟨hbyte, rfl⟩)

end Piece

/-! ## Names and values -/

theorem lexeme?_of_isName (h : IsName text) :
    lexeme? ⟨text⟩ 0 = some ⟨.identifier, text, ⟨0, text.utf8ByteSize⟩⟩ := by
  obtain ⟨hname, hplain⟩ := h
  have hwhole : slice? ⟨text⟩ 0 text.utf8ByteSize = some text := by
    have := (piece_whole ⟨text⟩).slice
    rwa [Nat.zero_add] at this
  have hskip : skipBlanks ⟨text⟩ 0 = 0 := by
    refine skipWhile_of_not_byteIn (Bool.eq_false_iff.2 fun hblank => ?_)
    obtain ⟨b, hb, hb'⟩ := byteIn_iff.1 hblank
    obtain ⟨c, hc, hc'⟩ := byteIn_iff.1 (Literal.name_eq_some.1 hname).1
    obtain rfl := Option.some.inj (hb.symm.trans hc)
    have hno := ByteClass.not_isNameByte_of_isBlank hb'
    rw [ByteClass.isNameByte_of_isAlphabetic hc'] at hno
    cases hno
  refine lexeme?_eq_some.2 ⟨hskip.symm, ?_, ?_⟩
  · rw [hskip]
    refine congrArg Except.ok (nameRule_eq_some.2 ⟨hname, fun w hw => ?_⟩)
    have hspelled := Keyword.ofSpelling?_eq_some.2 (Option.some.inj (hwhole.symm.trans hw))
    rw [hplain] at hspelled
    cases hspelled
  · show text = (slice? ⟨text⟩ 0 text.utf8ByteSize).getD ""
    rw [hwhole]
    rfl

theorem Island.name_lexeme? (h : s.Island d ⟨text⟩) (hname : IsName text) :
    s.lexeme? d = some ⟨.identifier, text, ⟨d, d + text.utf8ByteSize⟩⟩ :=
  h.lexeme? (lexeme?_of_isName hname)

end Source

open Matcher Grammar

/-- What a source is parsed as some run has made of it. -/
theorem Parse.made_of_ok {p : Parsed} (h : parse .value t l = .ok p) :
    ∃ k, Made ⟨t, l⟩ 0 (valueWithin ⟨t, l⟩ (l.maxDepth + 2)) 0 p.node k ∧ t.isSpent k = true := by
  obtain ⟨found, q, hout, rfl⟩ := parse_eq_ok.1 h
  obtain ⟨stop, u, hrun, rfl, -⟩ := Parse.run_of_outcome_ok hout
  have hwent : Went 1 (Goal.value.matcher ⟨t, l⟩) 0 .blank stop u.draft :=
    ⟨_, u.progress, rfl, hrun⟩
  rw [matcher_soleValue] at hwent
  obtain ⟨k, e, hvalue, hrest⟩ := went_andThen (valueWithin_lawful ⟨t, l⟩ (l.maxDepth + 2)) hwent
  obtain ⟨m, e', hahead, hdone⟩ :=
    went_andThen (E := (·.isFatal = true)) (ahead_lawful endOfInput_lawful) hrest
  obtain ⟨rfl, rfl⟩ := went_done hdone
  obtain ⟨rfl, _, hend⟩ := went_ahead hahead
  obtain ⟨hspent, -, hdraft⟩ := hend.traced (endOfInput_traced ⟨t, l⟩)
  refine ⟨stop, ⟨Parse.room_of_ok h, u.draft, ?_, rfl⟩, hspent⟩
  rw [hdraft]
  exact hvalue

namespace Source

/-- A value is read where it is written as it is read on its own, if it is over there. -/
theorem Island.stands {row : String × Parsed} (h : s.Island d ⟨row.1⟩) (hrow : ReadAs l row)
    (hsteps : l'.maxSteps = none) (hroom : l.maxDepth < l'.maxDepth)
    (hbehind : s.Closes (d + row.1.utf8ByteSize)) :
    Stands ⟨s, l'⟩ 1 d (row.2.node.relocate (Span.shift d)) (d + row.1.utf8ByteSize) := by
  obtain ⟨k, hmade, hspent⟩ := Parse.made_of_ok hrow
  obtain ⟨hδ, e, hwent, -⟩ := id hmade
  obtain ⟨xs, hpath, hvalue⟩ := leaves_path (hwent.traced (valueWithin_traced _ _))
  have hle := hpath.le_size (Nat.zero_le _)
  have hright := h.closes hbehind hle (.inl hspent)
  refine ⟨xs.map (Lexeme.shift d), d + k, h.path hpath, ?_, ?_, fun i hi => ?_⟩
  · rw [List.map_map]
    exact hvalue
  · exact h.toPiece.skipBlanks_of_isSpent hle hspent
  · have hδ : 0 < l.maxDepth := hδ
    refine h.makes hsteps (by omega) (fun w hleft hright => ?_) hmade ⟨xs, hpath, hvalue⟩
      (closes_of_isSpent hspent) hright hi
    rw [← hleft, ← hright]
    refine w.valueWithin_follows ?_
    rw [hright]
    show l.maxDepth + 2 ≤ l'.maxDepth + 1
    omega

end Source

/-! ## Rows of texts -/

variable {α β γ : Type} {write : α → String} {place : Nat → α → β} {a : α} {as : List α}
  {G : Nat → Nat → Prop} {R : Nat → β → Nat → Prop}

/-- What stands where in a row of texts, the first of which begins at `d`, with `gap` bytes
between any two. -/
def spread (gap : Nat) (write : α → String) (place : Nat → α → β) : Nat → List α → List β
  | _, [] => []
  | d, a :: as => place d a :: spread gap write place (d + (write a).utf8ByteSize + gap) as

theorem map_spread (f : β → γ) (gap d : Nat) (write : α → String) (place : Nat → α → β)
    (as : List α) :
    (spread gap write place d as).map f = spread gap write (fun d a => f (place d a)) d as := by
  induction as generalizing d with
  | nil => rfl
  | cons a as ih => exact congrArg _ (ih _)

/-- What does not depend on where it stands is just a row. -/
theorem spread_const (f : α → β) (gap d : Nat) (write : α → String) (as : List α) :
    spread gap write (fun _ => f) d as = as.map f := by
  induction as generalizing d with
  | nil => rfl
  | cons a as ih => exact congrArg _ (ih _)

theorem spread_append (gap d : Nat) (write : α → String) (place : Nat → α → β)
    (as as' : List α) :
    spread gap write place d (as ++ as') = spread gap write place d as ++
      spread gap write place (d + (as.map fun a => (write a).utf8ByteSize + gap).sum) as' := by
  induction as generalizing d with
  | nil => rfl
  | cons a as ih =>
      rw [List.cons_append, spread, spread, ih, List.map_cons, List.sum_cons, List.cons_append,
        Nat.add_assoc d, Nat.add_assoc d]

theorem size_join (texts : List String) :
    (String.join texts).utf8ByteSize = (texts.map String.utf8ByteSize).sum := by
  induction texts with
  | nil => rfl
  | cons text texts ih =>
      rw [String.join_cons, String.utf8ByteSize_append, ih, List.map_cons, List.sum_cons]

theorem intercalate_cons (sep text : String) (texts : List String) :
    sep.intercalate (text :: texts) = text ++ String.join (texts.map (sep ++ ·)) := by
  induction texts generalizing text with
  | nil => simp
  | cons next texts ih =>
      rw [String.intercalate_cons_cons, ih, List.map_cons, String.join_cons]
      simp only [String.append_assoc]

namespace Source

/-- A text that is a gap between what stands before and behind it. -/
def Leads (s : Source) (G : Nat → Nat → Prop) (sep : String) : Prop :=
  Bare sep ∧ ∀ d, s.Piece d ⟨sep⟩ → G d (d + sep.utf8ByteSize) ∧
    (s.Closes (d + sep.utf8ByteSize) → s.Closes d)

/-- What is written reads as something wherever it is over, and no chain goes on with it. -/
def Settled (s : Source) (R : Nat → β → Nat → Prop) (write : α → String) (place : Nat → α → β)
    (a : α) : Prop :=
  ∀ d, s.Island d ⟨write a⟩ → s.Closes (d + (write a).utf8ByteSize) →
    R d (place d a) (d + (write a).utf8ByteSize) ∧ s.Closes d

theorem leads_mark {m : Symbol} (hbare : Bare m.char.toString)
    (hdot : m ≠ .identifierSeparator) : s.Leads (s.Token (.symbol m)) m.char.toString := by
  refine ⟨hbare, fun d h => ?_⟩
  have hsize : m.char.toString.utf8ByteSize = 1 := by
    cases m <;> rfl
  rw [hsize]
  refine ⟨h.token, fun _ => h.token.closes ?_⟩
  simpa using hdot

theorem leads_blank (hbare : Bare g) (hblank : Blank g) : s.Leads s.Gap g :=
  ⟨hbare, fun _ h => ⟨h.gap hblank, fun hcloses => hcloses.congr (h.gap hblank).symm⟩⟩

/-- A row in which a gap comes before every part. -/
theorem led_of_piece (hsep : s.Leads G sep) (hparts : ∀ a ∈ as, s.Settled R write place a)
    (h : s.Piece d ⟨String.join (as.map fun a => sep ++ write a)⟩)
    (hend : d + (String.join (as.map fun a => sep ++ write a)).utf8ByteSize = o)
    (hseam : s.Seam o) (hbehind : s.Closes o) :
    Led G R d (spread sep.utf8ByteSize write place (d + sep.utf8ByteSize) as) o ∧ s.Closes d ∧
      s.Seam d := by
  induction as generalizing d with
  | nil =>
      obtain rfl : d = o := hend
      exact ⟨.nil d, hbehind, hseam⟩
  | cons a as ih =>
      rw [List.forall_mem_cons] at hparts
      rw [List.map_cons, String.join_cons] at h hend
      have hfirst : s.Piece d ⟨sep⟩ := h.left.left
      have hpart : s.Piece (d + sep.utf8ByteSize) ⟨write a⟩ := h.left.right
      have hrest := h.right
      rw [String.utf8ByteSize_append, ← Nat.add_assoc] at hrest
      rw [String.utf8ByteSize_append, String.utf8ByteSize_append, ← Nat.add_assoc,
        ← Nat.add_assoc] at hend
      obtain ⟨htail, hcloses, hbetween⟩ := ih hparts.2 hrest hend
      have hisland : s.Island (d + sep.utf8ByteSize) ⟨write a⟩ :=
        ⟨hpart, hfirst.seam_behind hsep.1, hbetween⟩
      obtain ⟨hread, hopens⟩ := hparts.1 _ hisland hcloses
      obtain ⟨hgap, hbefore⟩ := hsep.2 d hfirst
      exact ⟨.cons hgap hread htail, hbefore hopens, hfirst.seam_before hsep.1⟩

/-- A row in which a gap comes between any two parts. -/
theorem joined_of_piece (hsep : s.Leads G sep)
    (hparts : ∀ b ∈ a :: as, s.Settled R write place b)
    (h : s.Piece d ⟨sep.intercalate ((a :: as).map write)⟩)
    (hend : d + (sep.intercalate ((a :: as).map write)).utf8ByteSize = o)
    (hbefore : s.Seam d) (hseam : s.Seam o) (hbehind : s.Closes o) :
    R d (place d a) (d + (write a).utf8ByteSize) ∧
      Led G R (d + (write a).utf8ByteSize) (spread sep.utf8ByteSize write place
        (d + (write a).utf8ByteSize + sep.utf8ByteSize) as) o ∧ s.Closes d := by
  rw [List.forall_mem_cons] at hparts
  rw [List.map_cons, intercalate_cons, List.map_map] at h hend
  rw [String.utf8ByteSize_append, ← Nat.add_assoc] at hend
  obtain ⟨hrest, hcloses, hbetween⟩ :=
    led_of_piece hsep hparts.2 h.right hend hseam hbehind
  obtain ⟨hread, hopens⟩ := hparts.1 d ⟨h.left, hbefore, hbetween⟩ hcloses
  exact ⟨hread, hrest, hopens⟩

end Source

/-! ## Rows of values -/

/-- What a text stands for that is parsed on its own, where it is written. -/
def placeValue (d : Nat) (row : String × Parsed) : Node :=
  row.2.node.relocate (Span.shift d)

/-- What texts stand for that are written with one byte between any two. -/
def placeValues (d : Nat) (rows : List (String × Parsed)) : List Node :=
  spread 1 Prod.fst placeValue d rows

theorem Source.settled_value {row : String × Parsed} (hrow : ReadAs l row)
    (hsteps : l'.maxSteps = none) (hroom : l.maxDepth < l'.maxDepth) :
    s.Settled (Stands ⟨s, l'⟩ 1) Prod.fst placeValue row := by
  intro d hisland hbehind
  have hstands := hisland.stands hrow hsteps hroom hbehind
  obtain ⟨x, hx, hopener⟩ := hstands.opens
  refine ⟨hstands, fun y hy => ?_⟩
  obtain rfl := Option.some.inj (hx.symm.trans hy)
  intro hdot
  rw [hdot] at hopener
  exact absurd hopener (by decide)

end WeLang
