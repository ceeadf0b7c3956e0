import WeLang.Proofs.Advancing
import WeLang.Proofs.Pointing

/-!
# One place for one offset

Whoever is told a line and a column wants to find the place by counting: the line feeds
before it make the line, and the characters behind the last of them make the column
(`Location.Counts`). A scanner comes to the same by going one character at a time
(`Location.counts_after_origin`), and a table by looking up where the last line starts
(`Source.locate_eq_placeAt`), as long as the source is not too long to be counted in 32 bits.
So all lines and columns that are ever given are those of the offset they are given for: where
a scanner stands and where its tokens start, and where the errors of scanners and parsers
point (`places_agree`).

That makes them as good as offsets. A place further on in the source is a place further on
as people read, since every character that is passed moves it on (`Location.Counts.before`).
-/

namespace WeLang

variable {s : Source} {sc : Scanner} {o o' : Nat}

/-! ## Counting what stands before -/

/-- A place is the one behind some text: its line counts the line feeds there, and its column
the characters behind the last of them. -/
structure Location.Counts (place : Location) (text : List Char) : Prop where
  line : place.line.toNat = 1 + text.count '\n'
  column : place.column.toNat = 1 + (text.rtakeWhile (· ≠ '\n')).length

namespace Location

theorem after_singleton (place : Location) (c : Char) :
    place.after [c] = if c = '\n' then ⟨place.line + 1, 1⟩ else ⟨place.line, place.column + 1⟩ :=
  rfl

/-- To walk through a text is to count it, in 32 bits. -/
theorem after_origin (text : List Char) :
    origin.after text =
      ⟨.ofNat (1 + text.count '\n'), .ofNat (1 + (text.rtakeWhile (· ≠ '\n')).length)⟩ := by
  induction text using List.reverseRecOn with
  | nil => rfl
  | append_singleton text c ih =>
      rw [after_append, ih, after_singleton]
      split
      · next hc =>
          subst hc
          simp [UInt32.add_assoc]
      · next hc => simp [hc, UInt32.add_assoc]

/-- A text that is not too long for the numbers is counted right. -/
theorem counts_after_origin {text : List Char} (h : text.length < greatest) :
    (origin.after text).Counts text := by
  have hlines := text.count_le_length (a := '\n')
  have hcolumns := (text.rtakeWhile_suffix (· ≠ '\n')).length_le
  have hsize : greatest + 1 = UInt32.size := rfl
  rw [after_origin]
  exact ⟨UInt32.toNat_ofNat_of_lt' (by omega), UInt32.toNat_ofNat_of_lt' (by omega)⟩

/-- One place before another, as people read. -/
def Before (p q : Location) : Prop :=
  p.line < q.line ∨ p.line = q.line ∧ p.column < q.column

/-- Whatever is passed moves a place on. -/
theorem Counts.before {p q : Location} {text passed : List Char} (hp : p.Counts text)
    (hq : q.Counts (text ++ passed)) (hne : passed ≠ []) : p.Before q := by
  have hpline := hp.line
  have hqline := hq.line
  rw [List.count_append] at hqline
  by_cases hfeed : '\n' ∈ passed
  · have hpos := List.count_pos_iff.2 hfeed
    exact .inl (UInt32.lt_iff_toNat_lt.2 (by omega))
  · have hzero := List.count_eq_zero.2 hfeed
    have hpcolumn := hp.column
    have hqcolumn := hq.column
    have hkept : ∀ c ∈ passed.reverse, (decide (c ≠ '\n')) = true := fun c hc =>
      decide_eq_true fun heq => hfeed (heq ▸ List.mem_reverse.1 hc)
    rw [List.rtakeWhile, List.reverse_append, List.takeWhile_append_of_pos hkept,
      List.length_reverse, List.length_append, List.length_reverse] at hqcolumn
    rw [List.rtakeWhile, List.length_reverse] at hpcolumn
    have hlength := List.length_pos_of_ne_nil hne
    exact .inr ⟨UInt32.toNat_inj.1 (by omega), UInt32.lt_iff_toNat_lt.2 (by omega)⟩

end Location

/-- A place is that of an offset: it is found by looking the offset up, and by counting what
stands before it. -/
structure Source.LiesAt (s : Source) (o : Nat) (place : Location) : Prop where
  table : s.locate o = place
  counted : ∃ before, s.slice? 0 o = some before ∧ place.Counts before.toList

namespace Source

theorem counts_placeAt {before : String} (h : s.slice? 0 o = some before)
    (hs : s.size < Location.greatest) : (s.placeAt o).Counts before.toList := by
  have hlength := length_le_utf8ByteSize before
  have hsize := size_of_slice? h
  have hle := (slice?_eq_some.1 h).2.1.le_size
  rw [placeAt_of_slice? h]
  exact Location.counts_after_origin (by omega)

theorem liesAt_placeAt (ho : s.Boundary o) (hs : s.size < Location.greatest) :
    s.LiesAt o (s.placeAt o) := by
  obtain ⟨before, hbefore⟩ := exists_slice? s.boundary_zero ho (Nat.zero_le o)
  exact ⟨locate_eq_placeAt ho hs, before, hbefore, counts_placeAt hbefore hs⟩

/-- Places are in the order of their offsets. -/
theorem before_of_lt (ho : s.Boundary o) (ho' : s.Boundary o') (hlt : o < o')
    (hs : s.size < Location.greatest) : (s.placeAt o).Before (s.placeAt o') := by
  obtain ⟨before, hbefore⟩ := exists_slice? s.boundary_zero ho (Nat.zero_le o)
  obtain ⟨passed, hpassed⟩ := exists_slice? ho ho' (Nat.le_of_lt hlt)
  have hwhole := counts_placeAt (slice?_append hbefore hpassed) hs
  rw [String.toList_append] at hwhole
  refine (counts_placeAt hbefore hs).before hwhole fun hnil => ?_
  have hsize := size_of_slice? hpassed
  rw [String.toList_eq_nil_iff] at hnil
  rw [hnil] at hsize
  simp at hsize
  omega

/-- No line starts behind the end. -/
theorem start_le_size {n : Nat} (h : n ∈ (LineTable.ofSource s).starts) : n ≤ s.size := by
  rw [LineTable.starts_eq (t := s.text) (r := "") (String.append_empty ..).symm,
    List.cons_append, List.mem_cons, List.mem_append] at h
  rcases h with rfl | h | h
  · exact Nat.zero_le _
  · have := LineTable.startsIn_bounds h
    rw [length_bytesOf] at this
    exact Nat.le_trans this.2 (Nat.le_of_eq (Nat.zero_add _))
  · cases h

/-- Behind the end there are no more places. -/
theorem locate_of_size_le (h : s.size ≤ o) : s.locate o = s.locate s.size := by
  have hline : (LineTable.ofSource s).line o = (LineTable.ofSource s).line s.size := by
    rw [LineTable.line, LineTable.line, LineTable.lineIndex, LineTable.lineIndex]
    congr 2
    refine List.countP_congr fun n hn => ?_
    have := start_le_size hn
    simp only [decide_eq_true_eq]
    omega
  rw [locate, locate, LineTable.locate, LineTable.locate, hline, Nat.min_eq_right h,
    Nat.min_self]

end Source

/-! ## Scanners -/

namespace Scanner

@[simp] theorem moveTo_token (sc : Scanner) (s : Source) (target : Nat) :
    (sc.moveTo s target).token = sc.token := by
  rw [moveTo]
  split <;> rfl

/-- What becomes of a scanner that knows where it is: it still does, and what it finds is
located where it starts. -/
def Finds (s : Source) (sc : Scanner) : EStateM.Result LexError Scanner (Option Token) → Prop
  | .ok (some t) next => next.Placed s ∧ next.token = some t ∧
      s.Boundary t.span.start ∧ t.location = s.placeAt t.span.start
  | .ok none next => next.Placed s ∧ next.token = sc.token
  | .error e next => next.Placed s ∧ next.token = sc.token ∧
      s.Boundary e.span.start ∧ e.location = some (s.placeAt e.span.start)

theorem Placed.finds (h : sc.Placed s) : sc.Finds s (sc.advance s) := by
  obtain ⟨hmoved, hplace⟩ := h.skip
  have hstart := Source.boundary_skipBlanks h.boundary
  rw [Scanner.advance]
  simp only
  split
  · exact ⟨hmoved, moveTo_token ..⟩
  · split
    · next e hm =>
        obtain ⟨-, rfl⟩ := matchToken_eq_error.1 hm
        exact ⟨hmoved, moveTo_token .., hstart, congrArg some hplace⟩
    · next hm =>
        have hstop := (TokenKind.matchAt_bounds (matchToken_eq_token.1 hm)).2.2
        exact ⟨((hmoved.noteCollision _).withToken _).moveTo hstop, moveTo_token .., hstart, hplace⟩
    · exact ⟨hmoved.withToken _, rfl, hstart, hplace⟩

/-- A scanner that knows where it is and where the token that it found last starts. -/
structure Oriented (s : Source) (sc : Scanner) : Prop where
  placed : sc.Placed s
  token : ∀ t, sc.token = some t → s.Boundary t.span.start ∧ t.location = s.placeAt t.span.start

theorem oriented_initial (s : Source) : Oriented s .initial :=
  ⟨placed_initial s, fun _ h => nomatch h⟩

theorem Oriented.next (h : sc.Oriented s) : (sc.next s).Oriented s := by
  have hfinds := h.placed.finds
  rw [Scanner.next]
  cases hadv : sc.advance s with
  | error e next =>
      rw [hadv] at hfinds
      exact ⟨hfinds.1, fun t ht => h.token t (hfinds.2.1 ▸ ht)⟩
  | ok found? next =>
      rw [hadv] at hfinds
      cases found? with
      | none => exact ⟨hfinds.1, fun t ht => h.token t (hfinds.2 ▸ ht)⟩
      | some t =>
          refine ⟨hfinds.1, fun u hu => ?_⟩
          obtain rfl := Option.some.inj (hfinds.2.1.symm.trans hu)
          exact hfinds.2.2

end Scanner

theorem Source.oriented_scanned (s : Source) (n : Nat) : (s.scanned n).Oriented s := by
  induction n with
  | zero => exact Scanner.oriented_initial s
  | succ n ih => exact ih.next

/-! ## All places -/

/-- Tokens are located where they start. -/
theorem located_of_tokenize {ts : List Token} (h : tokenize s = .ok ts) {t : Token}
    (ht : t ∈ ts) : s.Boundary t.span.start ∧ t.location = s.placeAt t.span.start := by
  obtain ⟨rfl, _, hpath, -⟩ := tokenize_eq_ok.1 h
  obtain ⟨a, ha⟩ := hpath.exists_lexeme? _ (List.mem_map_of_mem ht)
  exact ⟨(Source.lexeme?_bounds ha).2.2.2.1,
    Scanner.location_of_mem_tokens (Scanner.placed_initial s) t ht⟩

/-- An error is located where it starts. -/
theorem located_of_tokenize_error {e : LexError} (h : tokenize s = .error e) :
    s.Boundary e.span.start ∧ e.location = some (s.placeAt e.span.start) := by
  obtain ⟨us, o, -, hstuck⟩ := tokenize_eq_error.1 h
  refine ⟨hstuck.boundary, ?_⟩
  cases hstuck <;> rfl

/-- Lines and columns are the same whoever gives them. In a source that is not too long for
their numbers, a scanner is always where it says it is, and so are the tokens that it finds
or found last, and the errors of scanners and parsers: looking the offset up in the table of
lines gives the same place, and so does counting what stands before it. Further on in the
source is further on in these places, up to the end, where they end. -/
theorem places_agree (hs : s.size < 2 ^ 32 - 1) :
    (∀ n, s.LiesAt (s.scanned n).position (s.scanned n).location) ∧
    (∀ n t, (s.scanned n).token = some t → s.LiesAt t.span.start t.location) ∧
    (∀ n t next, (s.scanned n).advance s = .ok (some t) next →
      s.LiesAt t.span.start t.location) ∧
    (∀ n e next, (s.scanned n).advance s = .error e next →
      ∃ place, e.location = some place ∧ s.LiesAt e.span.start place) ∧
    (∀ ts, tokenize s = .ok ts → ∀ t ∈ ts, s.LiesAt t.span.start t.location) ∧
    (∀ e, tokenize s = .error e →
      ∃ place, e.location = some place ∧ s.LiesAt e.span.start place) ∧
    (∀ goal l e, parse goal s l = .error e →
      ∃ place, e.location = some place ∧ s.LiesAt e.span.start place) ∧
    (∀ o o', s.Boundary o → s.Boundary o' → o < o' → (s.locate o).Before (s.locate o')) ∧
    ∀ o, s.size ≤ o → s.locate o = s.locate s.size := by
  have hlies {o : Nat} {place : Location} (ho : s.Boundary o) (h : place = s.placeAt o) :
      s.LiesAt o place :=
    h ▸ Source.liesAt_placeAt ho hs
  refine ⟨fun n => ?_, fun n t ht => ?_, fun n t next hadv => ?_, fun n e next hadv => ?_,
    fun ts hts t ht => ?_, fun e he => ?_, fun goal l e he => ?_, fun o o' ho ho' hlt => ?_,
    fun o => Source.locate_of_size_le⟩
  · have hplaced := (s.oriented_scanned n).placed
    exact hlies hplaced.boundary hplaced.location
  · obtain ⟨hstart, hplace⟩ := (s.oriented_scanned n).token t ht
    exact hlies hstart hplace
  · have hfinds := (s.oriented_scanned n).placed.finds
    rw [hadv] at hfinds
    exact hlies hfinds.2.2.1 hfinds.2.2.2
  · have hfinds := (s.oriented_scanned n).placed.finds
    rw [hadv] at hfinds
    exact ⟨_, hfinds.2.2.2, hlies hfinds.2.2.1 rfl⟩
  · obtain ⟨hstart, hplace⟩ := located_of_tokenize hts ht
    exact hlies hstart hplace
  · obtain ⟨hstart, hplace⟩ := located_of_tokenize_error he
    exact ⟨_, hplace, hlies hstart rfl⟩
  · obtain ⟨hspans, hplace, -⟩ := points_of_parse he
    exact ⟨_, hplace, hlies hspans.start (Source.locate_eq_placeAt hspans.start hs)⟩
  · rw [Source.locate_eq_placeAt ho hs, Source.locate_eq_placeAt ho' hs]
    exact Source.before_of_lt ho ho' hlt hs

open TokenKind in
/-- A string over two lines, and a numeral behind it in the second. -/
theorem places_agree_lines :
    Source.size ⟨"\"é\n\" 7"⟩ < 2 ^ 32 - 1 ∧
      tokenize ⟨"\"é\n\" 7"⟩ =
        .ok [⟨string, "é\n", ⟨0, 5⟩, ⟨1, 1⟩⟩, ⟨integer, "7", ⟨6, 7⟩, ⟨2, 3⟩⟩] ∧
      Source.LiesAt ⟨"\"é\n\" 7"⟩ 6 ⟨2, 3⟩ := by
  have hsize : Source.size ⟨"\"é\n\" 7"⟩ < 2 ^ 32 - 1 := by decide
  have hok : tokenize ⟨"\"é\n\" 7"⟩ =
      .ok [⟨string, "é\n", ⟨0, 5⟩, ⟨1, 1⟩⟩, ⟨integer, "7", ⟨6, 7⟩, ⟨2, 3⟩⟩] := by
    cbv
  obtain ⟨-, -, -, -, htokens, -⟩ := places_agree hsize
  exact ⟨hsize, hok, htokens _ hok ⟨integer, "7", ⟨6, 7⟩, ⟨2, 3⟩⟩ (by simp)⟩

end WeLang
