import Mathlib
import WeLang.Proofs.Carrying
import WeLang.Proofs.Places

/-!
# One line behind another

Behind a line feed a scanner is as good as new. What it has read and noted lies behind it,
its column is the first again, and no rule looks back across the line feed or ahead of what
is left, so it goes on as a scanner does that begins there, only that all it finds lies some
bytes and some lines further on (`tokenize_append`).

All this is about the end of a source: a piece that reaches to it, before which no name byte
comes (`Source.Tail`). What is read of it is read in the whole, since it is an island. What
cannot be read of it cannot be read in the whole either, and that needs more, for a string
that is not closed on an island may well be closed behind it; behind a tail nothing comes
(`Source.Tail.lexeme?_eq_none`).
-/

namespace WeLang

variable {s t r : Source} {d o o' k start : Nat} {xs ys us : List Lexeme} {e : LexError}

/-! ## Places, tokens and errors further on -/

/-- A place that lies some lines further down. -/
def Location.down (k : Nat) (place : Location) : Location :=
  ⟨place.line + .ofNat k, place.column⟩

theorem Location.toNat_line_down {k : Nat} {place : Location}
    (h : place.line.toNat + k < UInt32.size) :
    (place.down k).line.toNat = place.line.toNat + k := by
  have hk : (UInt32.ofNat k).toNat = k := UInt32.toNat_ofNat_of_lt' (by omega)
  rw [down, UInt32.toNat_add, hk]
  exact Nat.mod_eq_of_lt h

theorem Location.after_down (k : Nat) (place : Location) (text : List Char) :
    (place.down k).after text = (place.after text).down k := by
  induction text generalizing place with
  | nil => rfl
  | cons c text ih =>
      have hstep : (place.down k).after [c] = (place.after [c]).down k := by
        rw [after_singleton, after_singleton]
        split
        · refine congrArg (Location.mk · 1) ?_
          show place.line + .ofNat k + 1 = place.line + 1 + .ofNat k
          rw [UInt32.add_assoc, UInt32.add_assoc, UInt32.add_comm 1]
        · rfl
      rw [← List.singleton_append, after_append, after_append, hstep, ih]

/-- Behind a line feed begins a line, one for each line feed so far. -/
theorem Location.after_lineFeed (text : List Char) :
    origin.after (text ++ ['\n']) = origin.down (1 + text.count '\n') := by
  rw [after_append, after_origin, after_singleton, if_pos rfl, down, UInt32.add_comm]
  rfl

/-- No text has more line feeds than bytes. -/
theorem count_lineFeed_le (text : String) : text.toList.count '\n' ≤ text.utf8ByteSize :=
  List.count_le_length.trans (length_le_utf8ByteSize text)

/-- Before an offset there are no more lines than bytes. -/
theorem Source.toNat_line_placeAt_le (ho : s.Boundary o) :
    (s.placeAt o).line.toNat ≤ o + 1 := by
  obtain ⟨before, hbefore⟩ := exists_slice? s.boundary_zero ho (Nat.zero_le o)
  have hlines := count_lineFeed_le before
  have hsize := size_of_slice? hbefore
  rw [placeAt_of_slice? hbefore, Location.after_origin, UInt32.toNat_ofNat']
  have hwrap := Nat.mod_le (1 + before.toList.count '\n') (2 ^ 32)
  omega

/-- In a source that is short enough for their numbers, as many lines further down is that
number of lines further down. -/
theorem Source.toNat_line_down (ho : s.Boundary o) (hk : s.size + k < Location.greatest) :
    ((s.placeAt o).down k).line.toNat = (s.placeAt o).line.toNat + k := by
  have hline := toNat_line_placeAt_le ho
  have hle := ho.le_size
  have hsize : Location.greatest + 1 = UInt32.size := rfl
  exact Location.toNat_line_down (by omega)

/-- A token that lies some bytes and lines further on. -/
def Token.shift (d k : Nat) (t : Token) : Token :=
  ⟨t.kind, t.text, t.span.shift d, t.location.down k⟩

/-- An error that lies some bytes and lines further on. -/
def LexError.shift (d k : Nat) (e : LexError) : LexError :=
  ⟨e.cause, e.span.shift d, e.location.map (Location.down k)⟩

namespace Source

/-- The character at an offset is the one that the text from there begins with. -/
theorem char?_iff_slice? {c : Char} :
    s.char? o = some c ↔ s.slice? o (o + c.utf8Size) = some c.toString := by
  constructor
  · exact slice?_of_char?
  · intro h
    obtain ⟨before, behind, htext, hbefore, -⟩ := slice?_iff_append.1 h
    obtain ⟨ho, hend, -, -⟩ := slice?_eq_some.1 h
    have hstop := hend.le_size
    have := c.utf8Size_pos
    obtain ⟨c', hc'⟩ := Option.isSome_iff_exists.1 (char?_isSome.2 ⟨ho, by omega⟩)
    obtain ⟨before', behind', htext', hbefore', -⟩ := slice?_iff_append.1 (slice?_of_char? hc')
    rw [String.append_assoc] at htext htext'
    obtain ⟨-, hsame⟩ := eq_of_append_eq_append (htext.symm.trans htext')
      (hbefore.trans hbefore'.symm)
    have hlists := congrArg String.toList hsame
    simp only [String.toList_append, Char.toString, String.toList_singleton,
      List.singleton_append, List.cons.injEq] at hlists
    rw [hc', hlists.1]

theorem Piece.char? (h : s.Piece d t) {c : Char} (hc : t.char? o = some c) :
    s.char? (d + o) = some c := by
  have hslice := slice?_of_char? hc
  obtain ⟨-, hstop, -⟩ := slice?_eq_some.1 hslice
  rw [h.slice? hstop.le_size, ← Nat.add_assoc] at hslice
  exact char?_iff_slice?.2 hslice

/-- A piece that begins a line of the whole has the places of the whole, but for the lines
above it. -/
theorem Piece.placeAt (h : s.Piece d t) (hd : s.placeAt d = Location.origin.down k)
    (ho : t.Boundary o) : s.placeAt (d + o) = (t.placeAt o).down k := by
  obtain ⟨text, htext⟩ := exists_slice? t.boundary_zero ho (Nat.zero_le o)
  have hwhole := htext
  rw [h.slice? ho.le_size, Nat.add_zero] at hwhole
  rw [← after_placeAt hwhole, placeAt_of_slice? htext, hd, Location.after_down]

theorem Piece.tokenOf (h : s.Piece d t) (hd : s.placeAt d = Location.origin.down k)
    {x : Lexeme} (hx : t.lexeme? o = some x) :
    s.tokenOf (x.shift d) = (t.tokenOf x).shift d k := by
  show Token.mk x.kind x.text (x.span.shift d) (s.placeAt (d + x.span.start)) = _
  rw [h.placeAt hd (lexeme?_bounds hx).2.2.2.1]
  rfl

/-! ## Tails -/

/-- A piece that reaches to the end, before which no name byte comes. -/
structure Tail (s : Source) (d : Nat) (t : Source) : Prop extends Source.Part s d t where
  reaches : d + t.size = s.size

namespace Tail

/-- At the end of a tail a string that was not closed is not closed in the whole. -/
theorem closingQuote_eq_none (h : s.Tail d t) {pos : Nat}
    (hopen : Literal.closingQuote t pos = none) : Literal.closingQuote s (d + pos) = none := by
  cases hclose : Literal.closingQuote s (d + pos) with
  | none => rfl
  | some stop =>
      obtain ⟨hlt, hquote⟩ := Literal.closingQuote_eq_some hclose
      have hin := lt_size_of_byte? hquote
      have hreaches := h.reaches
      obtain ⟨stop, rfl⟩ := Nat.exists_eq_add_of_le (show d ≤ stop by omega)
      rw [h.toPiece.closingQuote rfl hclose (by omega)] at hopen
      cases hopen

/-- A kind that answers in the whole answers on the tail. -/
theorem answers (h : s.Tail d t) {kind : TokenKind} (hans : kind.Answers s (d + start)) :
    kind.Answers t start := by
  have hreaches := h.reaches
  cases hm : kind.matchAt s (d + start) with
  | ok stop? =>
      cases stop? with
      | none => exact absurd hm hans
      | some stop =>
          obtain ⟨hlt, -, hstop⟩ := TokenKind.matchAt_bounds hm
          have hin := hstop.le_size
          obtain ⟨stop, rfl⟩ := Nat.exists_eq_add_of_le (show d ≤ stop by omega)
          exact TokenKind.answers_of_matchAt
            (h.toPiece.matchAt hm (by omega) fun _ _ _ => h.free)
  | error u =>
      obtain ⟨rfl, -⟩ := TokenKind.matchAt_eq_error hm
      have hquote := (Literal.string_eq_error.1 hm).1
      have hin := lt_size_of_byte? hquote
      rw [← h.toPiece.byte? (by omega)] at hquote
      exact fun hnone => Literal.string_eq_none.1 hnone hquote

/-- What is wrong with a tail that begins a line is wrong with the whole. -/
theorem stuck (h : s.Tail d t) (hd : s.placeAt d = Location.origin.down k)
    (he : t.Stuck o e) : s.Stuck (d + o) (e.shift d k) := by
  have hlt := he.lt_size
  have hskip := h.toPiece.skipBlanks_whole hlt
  have hplace := h.toPiece.placeAt hd he.boundary
  cases he with
  | unclosed opened =>
      obtain ⟨hquote, hopen, -⟩ := Literal.string_eq_error.1 opened
      rw [h.toPiece.byte? hlt] at hquote
      have hwhole : s.OpenString (d + o) := by
        rw [OpenString, hskip]
        exact Literal.string_eq_error.2 ⟨hquote, h.closingQuote_eq_none hopen, rfl⟩
      have hstuck := Stuck.unclosed hwhole
      rw [hskip, hplace, ← h.reaches] at hstuck
      exact hstuck
  | @unknown c here nothing =>
      have hchar := h.toPiece.char? here
      have hwhole : ∀ kind : TokenKind, ¬ kind.Answers s (s.skipBlanks (d + o)) := by
        intro kind hans
        rw [hskip] at hans
        exact nothing kind (h.answers hans)
      have hstuck := Stuck.unknown (hskip.symm ▸ hchar) hwhole
      rw [hskip, hplace, Nat.add_assoc] at hstuck
      exact hstuck

/-- Where nothing is read of a tail that begins a line, nothing is read of the whole. -/
theorem lexeme?_eq_none (h : s.Tail d t) (hd : s.placeAt d = Location.origin.down k)
    (ho : t.Boundary o) (hnone : t.lexeme? o = none) : s.lexeme? (d + o) = none := by
  rcases spent_or_stuck ho hnone with hspent | ⟨e, he⟩
  · have hskip := h.toPiece.skipBlanks_of_isSpent ho.le_size hspent
    refine lexeme?_of_isSpent ?_
    rw [isSpent, hskip, h.reaches]
    exact decide_eq_true (s.le_skipBlanks _)
  · exact (h.stuck hd he).lexeme?

end Tail

/-- A source is stuck where it is stuck behind the next blanks. -/
theorem Stuck.congr (h : s.Stuck o e) (heq : s.skipBlanks o = s.skipBlanks o') :
    s.Stuck o' e := by
  cases h with
  | unclosed opened =>
      have hopened : s.OpenString o' := by
        rwa [OpenString, ← heq]
      rw [heq]
      exact .unclosed hopened
  | unknown here nothing =>
      rw [heq] at here nothing ⊢
      exact .unknown here nothing

/-! ## A scanner that has no more to read -/

/-- Where the path ends the scanner stays. -/
theorem Path.behind_of_end (h : s.Path 0 us o) (hend : s.lexeme? o = none) (n : Nat) :
    (s.scanned (us.length + n)).Behind s us := by
  induction n with
  | zero => exact h.behind
  | succ n ih =>
      refine ih.stay ?_
      obtain ⟨m, hpath, hm⟩ := ih.reaches
      obtain ⟨-, rfl⟩ := hpath.eq_of_length_eq h rfl
      exact (lexeme?_congr hm).symm.trans hend

theorem Path.take (h : s.Path 0 us o) (n : Nat) : ∃ m, s.Path 0 (us.take n) m := by
  rw [← List.take_append_drop n us] at h
  obtain ⟨m, hinit, -⟩ := h.of_append
  exact ⟨m, hinit⟩

/-- After so many steps, the collisions of so many tokens are noted. -/
theorem Path.collisions_scanned (h : s.Path 0 us o) (hend : s.lexeme? o = none) (n : Nat) :
    (s.scanned n).collisions.toList = s.collisionsOf (us.take n) := by
  rcases Nat.le_or_ge us.length n with hle | hle
  · obtain ⟨m, rfl⟩ := Nat.exists_eq_add_of_le hle
    rw [(h.behind_of_end hend m).collisions, List.take_of_length_le hle]
  · obtain ⟨m, hinit⟩ := h.take n
    have hbehind := hinit.behind
    rw [List.length_take, Nat.min_eq_left hle] at hbehind
    exact hbehind.collisions

/-! ## A source and a line behind it -/

/-- A source and a tail that begins a line behind it. -/
structure Continued (s t : Source) (d k : Nat) (r : Source) : Prop
    extends Source.Joint s t d r where
  free : s.nameByteBefore d = false
  line : s.placeAt d = Location.origin.down k

namespace Continued

theorem tail (h : s.Continued t d k r) : s.Tail d r :=
  ⟨⟨h.right.toPiece, h.free⟩, h.whole⟩

/-- The path through the whole is the path through the source and then through the tail, as
far as one comes. -/
theorem reaches (h : s.Continued t d k r) (ht : t.Reads 0 xs) (hr : r.Path 0 ys o) :
    s.Reaches 0 (xs ++ ys.map (Lexeme.shift d)) (d + o) := by
  obtain ⟨n, hn, hspent⟩ := ht
  have hleft := h.left.path hn
  have hseam := h.left.toPiece.skipBlanks_of_isSpent (hn.le_size (Nat.zero_le _)) hspent
  simp only [Nat.zero_add] at hleft hseam
  rw [Lexeme.shift_zero, List.map_id] at hleft
  have hseam : s.Reaches 0 xs d := ⟨n, hleft, hseam.trans h.between⟩
  exact hseam.trans ⟨d + o, h.right.path hr, rfl⟩

/-- Where the path through the tail ends, it ends in the whole. -/
theorem path (h : s.Continued t d k r) (ht : t.Reads 0 xs) (hr : r.Path 0 ys o)
    (hend : r.lexeme? o = none) :
    ∃ m, s.Path 0 (xs ++ ys.map (Lexeme.shift d)) m ∧ s.lexeme? m = none := by
  obtain ⟨m, hpath, hm⟩ := h.reaches ht hr
  have hnone := h.tail.lexeme?_eq_none h.line (hr.boundary r.boundary_zero) hend
  exact ⟨m, hpath, (lexeme?_congr hm).trans hnone⟩

/-- Tokens are located in the whole as in the source, and as in the tail but further on. -/
theorem map_tokenOf (h : s.Continued t d k r) (ht : t.Path 0 xs o) (hr : r.Path 0 ys o') :
    (xs ++ ys.map (Lexeme.shift d)).map s.tokenOf =
      xs.map t.tokenOf ++ (ys.map r.tokenOf).map (Token.shift d k) := by
  rw [List.map_append, List.map_map, List.map_map]
  congr 1
  · refine List.map_congr_left fun x hx => ?_
    obtain ⟨a, ha⟩ := ht.exists_lexeme? x hx
    have hpart : s.Part 0 t := ⟨h.left.toPiece, rfl⟩
    have hbounds := lexeme?_bounds ha
    rw [tokenOf, tokenOf, hpart.placeAt (by omega)]
  · refine List.map_congr_left fun y hy => ?_
    obtain ⟨a, ha⟩ := hr.exists_lexeme? y hy
    exact h.right.toPiece.tokenOf h.line ha

/-- What is noted of the whole is what is noted of the source and then of the tail. -/
theorem collisionsOf (h : s.Continued t d k r) (ht : t.Path 0 xs o) (hr : r.Path 0 ys o') :
    s.collisionsOf (xs ++ ys.map (Lexeme.shift d)) =
      t.collisionsOf xs ++ (r.collisionsOf ys).map (KeywordCollision.shift d) := by
  have hleft := h.left.collisionsOf ht
  rw [Lexeme.shift_zero, KeywordCollision.shift_zero, List.map_id, List.map_id] at hleft
  rw [Source.collisionsOf_append, hleft, h.right.collisionsOf hr]

/-- After some steps in the whole, and after so many in the source, and those that are left
in the tail. -/
theorem collisions_scanned (h : s.Continued t d k r) (ht : t.Reads 0 xs) (hr : r.Path 0 ys o)
    (hend : r.lexeme? o = none) (n : Nat) :
    (s.scanned n).collisions.toList = (t.scanned n).collisions.toList ++
      (r.scanned (n - xs.length)).collisions.toList.map (KeywordCollision.shift d) := by
  obtain ⟨o', hleft, hspent⟩ := id ht
  obtain ⟨m, hpath, hm⟩ := h.path ht hr hend
  obtain ⟨_, hxs⟩ := hleft.take n
  obtain ⟨_, hys⟩ := hr.take (n - xs.length)
  rw [hpath.collisions_scanned hm, hleft.collisions_scanned (lexeme?_of_isSpent hspent),
    hr.collisions_scanned hend, List.take_append, ← List.map_take, h.collisionsOf hxs hys]

end Continued

/-- A text, a line feed, and another text. -/
theorem continued_of_lineFeed (a b : String) :
    Continued ⟨a ++ "\n" ++ b⟩ ⟨a⟩ (a.utf8ByteSize + 1) (1 + a.toList.count '\n') ⟨b⟩ := by
  have hsize : (a ++ "\n").utf8ByteSize = a.utf8ByteSize + 1 := String.utf8ByteSize_append
  have hjoint : Joint ⟨a ++ "\n" ++ b⟩ ⟨a⟩ (a ++ "\n").utf8ByteSize ⟨b⟩ :=
    joint_of_blank (by decide +kernel) (by decide)
  have hline : slice? ⟨a ++ "\n" ++ b⟩ 0 (a ++ "\n").utf8ByteSize = some (a ++ "\n") :=
    slice?_iff_append.2 ⟨"", b, by simp, rfl, by simp⟩
  rw [hsize] at hjoint hline
  refine ⟨hjoint, ?_, ?_⟩
  · have hbyte : byte? ⟨a ++ "\n" ++ b⟩ a.utf8ByteSize = some '\n'.toUInt8 := by
      rw [String.append_assoc]
      exact byte?_append_right 0
    rw [nameByteBefore, Nat.add_sub_cancel, byteIn, hbyte]
    rfl
  · rw [placeAt_of_slice? hline, String.toList_append]
    exact Location.after_lineFeed _

end Source

/-- Scanning line after line. Let a source be cut into tokens, and put a line feed and
another source behind it. The whole is cut into the tokens of the first and those of the
second, which lie as many bytes further on as the first and the line feed have, and as many
lines as there are line feeds before them, in the same columns and with the same texts. If
the second cannot be cut, then nor can the whole, for the same reason, and there. After any
number of steps a scanner of the whole has noted what a scanner of the first has noted by
then, and behind it what one of the second has noted in the steps that are left.

Lines are added as they are counted, in 32 bits. In a whole that is not too long for their
numbers the sum is that of the numbers. -/
theorem tokenize_append {a : String} {ta : List Token} (ha : tokenize ⟨a⟩ = .ok ta)
    (b : String) :
    let whole : Source := ⟨a ++ "\n" ++ b⟩
    let d := a.utf8ByteSize + 1
    let k := 1 + a.toList.count '\n'
    (∀ tb, tokenize ⟨b⟩ = .ok tb → tokenize whole = .ok (ta ++ tb.map (Token.shift d k)) ∧
      (whole.size < 2 ^ 32 - 1 →
        ∀ t ∈ tb, (t.shift d k).location.line.toNat = t.location.line.toNat + k)) ∧
    (∀ e, tokenize ⟨b⟩ = .error e → tokenize whole = .error (e.shift d k) ∧
      (whole.size < 2 ^ 32 - 1 →
        ∃ place, e.location = some place ∧
          (place.down k).line.toNat = place.line.toNat + k)) ∧
    ∀ n, (whole.scanned n).collisions.toList =
      (Source.scanned ⟨a⟩ n).collisions.toList ++
        (Source.scanned ⟨b⟩ (n - ta.length)).collisions.toList.map (KeywordCollision.shift d) := by
  intro whole d k
  have h : whole.Continued ⟨a⟩ d k ⟨b⟩ := Source.continued_of_lineFeed a b
  obtain ⟨hta, hreads⟩ := tokenize_eq_ok.1 ha
  obtain ⟨o, hleft, hspent⟩ := id hreads
  have hleftEnd := Source.lexeme?_of_isSpent hspent
  -- there are fewer lines than bytes in front of the second source, so what is short enough
  -- for its bytes is for its lines
  have hfits (hs : whole.size < 2 ^ 32 - 1) : Source.size ⟨b⟩ + k < Location.greatest := by
    have hlines := count_lineFeed_le a
    have hwhole : d + Source.size ⟨b⟩ = whole.size := h.whole
    have hgreatest : Location.greatest = 2 ^ 32 - 1 := rfl
    omega
  refine ⟨fun tb hb => ⟨?_, fun hs t ht => ?_⟩, fun e he => ⟨?_, fun hs => ?_⟩, fun n => ?_⟩
  · obtain ⟨htb, hreads'⟩ := tokenize_eq_ok.1 hb
    obtain ⟨o', hright, hspent'⟩ := id hreads'
    have hrightEnd := Source.lexeme?_of_isSpent hspent'
    obtain ⟨m, hpath, hm⟩ := h.path hreads hright hrightEnd
    obtain ⟨ts, hts, hlexemes⟩ := exists_tokenize_of_reads (h.reads hreads hreads')
    rw [hts, (tokenize_eq_ok.1 hts).1, Source.tokens_eq_of_path hpath hm,
      h.map_tokenOf hleft hright, ← Source.tokens_eq_of_path hleft hleftEnd,
      ← Source.tokens_eq_of_path hright hrightEnd, ← hta, ← htb]
  · obtain ⟨hstart, hplace⟩ := located_of_tokenize hb ht
    rw [Token.shift, hplace]
    exact Source.toNat_line_down hstart (hfits hs)
  · obtain ⟨ys, o', hright, hstuck⟩ := tokenize_eq_error.1 he
    obtain ⟨m, hpath, hm⟩ := h.reaches hreads hright
    exact tokenize_eq_error.2 ⟨_, m, hpath, (h.tail.stuck h.line hstuck).congr hm.symm⟩
  · obtain ⟨hstart, hplace⟩ := located_of_tokenize_error he
    exact ⟨_, hplace, Source.toNat_line_down hstart (hfits hs)⟩
  · obtain ⟨o', hright, hrightEnd⟩ := Scanner.initial.path_tokens ⟨b⟩
    have hnoted := h.collisions_scanned hreads hright hrightEnd n
    rwa [List.length_map] at hnoted

open TokenKind in
/-- Behind a string over two lines with a character of two bytes, a glued word, and a
character that begins no token. -/
theorem tokenize_append_glued :
    tokenize ⟨"\"é\n\"" ++ "\n" ++ "_fn"⟩ =
        .ok [⟨string, "é\n", ⟨0, 5⟩, ⟨1, 1⟩⟩, ⟨symbol .discard, "_", ⟨6, 7⟩, ⟨3, 1⟩⟩,
          ⟨identifier, "fn", ⟨7, 9⟩, ⟨3, 2⟩⟩] ∧
      (Source.scanned ⟨"\"é\n\"" ++ "\n" ++ "_fn"⟩ 3).collisions.toList =
        [⟨⟨7, 9⟩, .fnWord⟩] ∧
      tokenize ⟨"\"é\n\"" ++ "\n" ++ "€"⟩ =
        .error ⟨.unknownSymbol '€', ⟨6, 9⟩, some ⟨3, 1⟩⟩ ∧
      (Location.down (1 + "\"é\n\"".toList.count '\n') ⟨1, 2⟩).line.toNat = 1 + 2 := by
  have ha : tokenize ⟨"\"é\n\""⟩ = .ok [⟨string, "é\n", ⟨0, 5⟩, ⟨1, 1⟩⟩] := by
    cbv
  have hb : tokenize ⟨"_fn"⟩ = .ok [⟨symbol .discard, "_", ⟨0, 1⟩, ⟨1, 1⟩⟩,
      ⟨identifier, "fn", ⟨1, 3⟩, ⟨1, 2⟩⟩] := by
    cbv
  have he : tokenize ⟨"€"⟩ = .error ⟨.unknownSymbol '€', ⟨0, 3⟩, some ⟨1, 1⟩⟩ := by
    cbv
  obtain ⟨hok, -, hcollisions⟩ := tokenize_append ha "_fn"
  obtain ⟨htokens, hlines⟩ := hok _ hb
  exact ⟨htokens, (hcollisions 3).trans (by decide +kernel),
    ((tokenize_append ha "€").2.1 _ he).1,
    hlines (by decide +kernel) ⟨identifier, "fn", ⟨1, 3⟩, ⟨1, 2⟩⟩ (by simp)⟩

end WeLang
