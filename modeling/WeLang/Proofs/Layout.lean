import WeLang.Proofs.Excerpts
import WeLang.Proofs.Seams

/-!
# Layout

What stands between the tokens of a source may be anything that is blank, and where two of
them stood side by side blanks may be put between. That is not said by the scanner, since a
token that stood beside another now stands beside a blank, and rules look at the byte behind
a match, and those of words at the byte before it.

But a token that is cut out of its source is read on its own (`Source.Path.excerpt`), unless
it is glued to what came before; and where blanks begin or end is a seam, so what was read on
its own is read in any layout (`Source.Reads.append`). Blanks are all that is needed between
two words, and nothing before the first and behind the last.
-/

namespace WeLang

variable {s : Source} {o : Nat}

/-- A way to write words one after the other, with gaps of blanks before, between and behind
them. Only the first gap and the last may be empty. -/
structure Layout where
  /-- the words, each behind the gap before it -/
  rows : List (String × String)
  /-- the gap behind the last word -/
  last : String
  blank : ∀ row ∈ rows, Blank row.1
  apart : ∀ row ∈ rows.tail, row.1 ≠ ""
  blank_last : Blank last

namespace Layout

/-- Words behind their gaps as a text. -/
def write : List (String × String) → String
  | [] => ""
  | (gap, word) :: rows => gap ++ (word ++ write rows)

/-- The words that are laid out. -/
def words (layout : Layout) : List String :=
  layout.rows.map Prod.snd

/-- The words in their layout. -/
def source (layout : Layout) : Source :=
  ⟨write layout.rows ++ layout.last⟩

end Layout

@[simp] theorem Lexeme.word_shift (d : Nat) (x : Lexeme) : (x.shift d).word = x.word :=
  rfl

/-- That a token was glued shows in its kind and its text. -/
theorem Lexeme.glued_congr {x y : Lexeme} (h : x.word = y.word) : x.Glued ↔ y.Glued := by
  obtain ⟨hkind, htext⟩ := Prod.mk.inj h
  simp only [Glued, hkind, htext]

/-! ## One token on its own -/

/-- A text that is one token, and which token it is. -/
def Lexeme.Spelled (x : Lexeme) (word : String) : Prop :=
  ∃ y, Source.Reads ⟨word⟩ 0 [y] ∧ y.word = x.word

/-- What a token covers is this token on its own, if it is not glued to anything. -/
theorem Source.spelled_of_lexeme? {x : Lexeme} (h : s.lexeme? o = some x) (hfree : ¬ x.Glued)
    {word : String} (hword : s.slice? x.span.start x.span.stop = some word) :
    x.Spelled word := by
  have hstart := (lexeme?_eq_some.1 h).1
  have hpath : s.Path o [x] x.span.stop := .cons h (.nil _)
  rw [hstart] at hword
  have halone := hpath.excerpt (List.cons_ne_nil _ _) (piece_of_slice? hword)
    (size_of_slice? hword).symm (by simpa using hfree)
  exact ⟨_, ⟨_, halone, isSpent_size _⟩, rfl⟩

/-! ## Tokens in a layout -/

/-- Behind a word comes a seam: the next gap, or the last one. -/
theorem Layout.seam_behind {word last : String} {rows : List (String × String)}
    (hblank : ∀ row ∈ rows, Blank row.1) (hapart : ∀ row ∈ rows, row.1 ≠ "")
    (hlast : Blank last) :
    Source.Seam ⟨word ++ (write rows ++ last)⟩ word.utf8ByteSize := by
  cases rows with
  | nil =>
      have hseam := Source.seam_of_blank_behind (u := word) (v := "") hlast (.inr rfl)
      rwa [String.append_empty] at hseam
  | cons row rows =>
      obtain ⟨gap, next⟩ := row
      have hseam := Source.seam_of_blank_behind (u := word) (v := next ++ write rows ++ last)
        (hblank _ List.mem_cons_self) (.inl (hapart _ List.mem_cons_self))
      simpa only [write, String.append_assoc] using hseam

/-- Words that are tokens on their own are these tokens in a layout. -/
theorem Layout.reads_write {rows : List (String × String)} {last : String} {xs : List Lexeme}
    (hblank : ∀ row ∈ rows, Blank row.1) (hapart : ∀ row ∈ rows.tail, row.1 ≠ "")
    (hlast : Blank last) (h : List.Forall₂ (fun row x => x.Spelled row.2) rows xs) :
    ∃ ys, Source.Reads ⟨write rows ++ last⟩ 0 ys ∧ ys.map Lexeme.word = xs.map Lexeme.word := by
  induction h with
  | nil =>
      refine ⟨[], ?_, rfl⟩
      rw [write, String.empty_append]
      exact Source.reads_of_blank hlast
  | @cons row x rows xs hrow _ ih =>
      obtain ⟨gap, word⟩ := row
      obtain ⟨y, hy, hword⟩ := hrow
      rw [List.forall_mem_cons] at hblank
      obtain ⟨ys, hys, hwords⟩ := ih hblank.2 fun row hmem => hapart row (List.mem_of_mem_tail hmem)
      have hbehind := hy.append hys (seam_behind hblank.2 hapart hlast)
      have hseam := Source.seam_of_blank_before (u := "") (v := word ++ (write rows ++ last))
        hblank.1 (.inr rfl)
      rw [String.empty_append] at hseam
      have hall := (Source.reads_of_blank hblank.1).append hbehind hseam
      have htext : write ((gap, word) :: rows) ++ last = gap ++ (word ++ (write rows ++ last)) := by
        rw [write]
        simp only [String.append_assoc]
      rw [htext]
      refine ⟨_, hall, ?_⟩
      simp [List.map_map, Function.comp_def, hword, hwords]

/-- No word is noted of a source in which nothing is glued. -/
theorem Source.collisions_scanned {xs : List Lexeme} (hreads : s.Reads 0 xs)
    (hfree : ∀ x ∈ xs, ¬ x.Glued) (n : Nat) : (s.scanned n).collisions = #[] := by
  obtain ⟨us, hbehind⟩ := s.exists_behind n
  obtain ⟨m, hus, -⟩ := hbehind.reaches
  obtain ⟨o, hxs, hspent⟩ := hreads
  have hsub : ∀ x ∈ us, ¬ x.Glued := by
    rcases hus.total hxs with ⟨zs, rfl, -⟩ | ⟨zs, rfl, hzs⟩
    · exact fun x hx => hfree x (List.mem_append_left _ hx)
    · cases hzs with
      | nil _ => simpa using hfree
      | cons head _ => cases (lexeme?_of_isSpent hspent).symm.trans head
  rw [← Array.toList_eq_nil_iff, hbehind.collisions, hus.collisionsOf_eq_nil]
  exact hsub

/-- The scanner takes no notice of the layout. If a source can be cut into tokens and the
scanner notes no collision in it, then so it is with the source that has the same words in
another layout, and the tokens are the same, but for where they stand. -/
theorem tokenize_layout {ts : List Token} (h : tokenize s = .ok ts)
    (hclean : ∀ n, (s.scanned n).isAtEnd s = true → (s.scanned n).collisions = #[])
    (layout : Layout)
    (hwords : ts.map (fun t => s.slice? t.span.start t.span.stop) = layout.words.map some) :
    ∃ ts', tokenize layout.source = .ok ts' ∧
      ts'.map (fun t => (t.kind, t.text)) = ts.map (fun t => (t.kind, t.text)) ∧
      ∀ n, (layout.source.scanned n).collisions = #[] := by
  have hreads := (tokenize_eq_ok.1 h).2
  obtain ⟨o, hpath, -⟩ := id hreads
  have hfree : ∀ x ∈ ts.map Token.lexeme, ¬ x.Glued := by
    rw [← hpath.collisionsOf_eq_nil]
    obtain ⟨us, hbehind⟩ := s.exists_behind (ts.map Token.lexeme).length
    have hend := Source.isAtEnd_of_reads hreads
    obtain rfl := hreads.unique (Source.reads_of_behind hbehind hend)
    rw [← hbehind.collisions, hclean _ hend]
  have hspelled : layout.rows.Forall₂ (fun row x => x.Spelled row.2) (ts.map Token.lexeme) := by
    have hrows : ts.Forall₂ (fun t row => s.slice? t.span.start t.span.stop = some row.2)
        layout.rows := by
      rw [Layout.words, List.map_map, ← List.forall₂_eq_eq_eq] at hwords
      exact List.forall₂_map_right_iff.1 (List.forall₂_map_left_iff.1 hwords)
    have hread : ∀ t ∈ ts, (∃ a, s.lexeme? a = some t.lexeme) ∧ ¬ t.lexeme.Glued := fun t ht =>
      have hmem := List.mem_map_of_mem ht
      ⟨hpath.exists_lexeme? _ hmem, hfree _ hmem⟩
    rw [List.forall₂_map_right_iff]
    refine ((List.forall₂_and_left _ _).2 ⟨hread, hrows⟩).flip.imp fun row t hand => ?_
    obtain ⟨⟨⟨a, ha⟩, hfree⟩, hword⟩ := hand
    exact Source.spelled_of_lexeme? ha hfree hword
  obtain ⟨ys, hys, hsame⟩ :=
    Layout.reads_write layout.blank layout.apart layout.blank_last hspelled
  obtain ⟨ts', hts', rfl⟩ := exists_tokenize_of_reads hys
  refine ⟨ts', hts', ?_, Source.collisions_scanned hys fun x hx => ?_⟩
  · simpa [Lexeme.word, Token.lexeme, Function.comp_def] using hsame
  · have hmem : x.word ∈ (ts'.map Token.lexeme).map Lexeme.word := List.mem_map_of_mem hx
    rw [hsame] at hmem
    obtain ⟨y, hy, hword⟩ := List.mem_map.1 hmem
    exact fun hglued => hfree y hy ((Lexeme.glued_congr hword).2 hglued)

open TokenKind in
/-- A word at a bracket and a name behind it, with blanks put between. -/
theorem tokenize_layout_word :
    tokenize ⟨"fn(a"⟩ = .ok [⟨keyword .fnWord, "fn", ⟨0, 2⟩, ⟨1, 1⟩⟩,
        ⟨symbol .functionStart, "(", ⟨2, 3⟩, ⟨1, 3⟩⟩, ⟨identifier, "a", ⟨3, 4⟩, ⟨1, 4⟩⟩] ∧
      ∃ ts, tokenize ⟨"\nfn \t( a"⟩ = .ok ts ∧
        ts.map (fun t => (t.kind, t.text)) =
          [(keyword .fnWord, "fn"), (symbol .functionStart, "("), (identifier, "a")] ∧
        ∀ n, (Source.scanned ⟨"\nfn \t( a"⟩ n).collisions = #[] := by
  have hok : tokenize ⟨"fn(a"⟩ = .ok [⟨keyword .fnWord, "fn", ⟨0, 2⟩, ⟨1, 1⟩⟩,
      ⟨symbol .functionStart, "(", ⟨2, 3⟩, ⟨1, 3⟩⟩, ⟨identifier, "a", ⟨3, 4⟩, ⟨1, 4⟩⟩] := by
    cbv
  have hclean : ∀ n, (Source.scanned ⟨"fn(a"⟩ n).collisions = #[] := by
    refine Source.collisions_scanned (tokenize_eq_ok.1 hok).2 ?_
    rintro x hx ⟨hname, w, hw⟩
    simp only [List.map_cons, List.map_nil, List.mem_cons, List.not_mem_nil, or_false] at hx
    rcases hx with rfl | rfl | rfl
    · cases hname
    · cases hname
    · cases w <;> exact absurd hw (by decide)
  have hblank : ∀ row ∈ [("\n", "fn"), (" \t", "("), (" ", "a")], Blank row.1 := by
    decide +kernel
  let layout : Layout := ⟨[("\n", "fn"), (" \t", "("), (" ", "a")], "",
    hblank, by decide +kernel, by decide +kernel⟩
  exact ⟨hok, tokenize_layout hok (fun n _ => hclean n) layout (by cbv)⟩

end WeLang
