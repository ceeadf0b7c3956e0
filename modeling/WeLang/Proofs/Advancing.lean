import WeLang.Proofs.Cutting
import WeLang.Proofs.Reading

/-!
# A scanner after some steps

A scanner may be asked for the next token again and again, also when it has none to
give. `Source.scanned` is the scanner after so many steps from the beginning, whatever
came of them.

It is always at some place on the path, and the tokens up to there are all that it
knows of the source (`Scanner.Behind`): they say where it is, up to blanks, and which
reserved words it has noted. It compares a word only with the one that it noted last,
which is enough, since it never reads a token twice. So what it has noted are the
collisions of the tokens that it has read, one for each (`Source.collisionsOf`).
-/

namespace WeLang

variable {s : Source} {sc : Scanner} {o o' : Nat} {us : List Lexeme} {t : Token}

/-! ## Collisions of tokens -/

/-- The reserved words among some tokens that were read as names. -/
def Source.collisionsOf (s : Source) (xs : List Lexeme) : List KeywordCollision :=
  xs.filterMap fun x => KeywordCollision.ofToken? x.kind s x.span

namespace Source

theorem span_of_ofToken? {kind : TokenKind} {span : Span} {c : KeywordCollision}
    (h : KeywordCollision.ofToken? kind s span = some c) : c.span = span := by
  cases kind with
  | identifier =>
      obtain ⟨word, -, rfl⟩ := Option.map_eq_some_iff.1 h
      rfl
  | _ => cases h

theorem span_of_mem_collisionsOf {c : KeywordCollision} (h : c ∈ s.collisionsOf us) :
    ∃ x ∈ us, c.span = x.span := by
  obtain ⟨x, hx, hc⟩ := List.mem_filterMap.1 h
  exact ⟨x, hx, span_of_ofToken? hc⟩

theorem collisionsOf_append (s : Source) (us vs : List Lexeme) :
    s.collisionsOf (us ++ vs) = s.collisionsOf us ++ s.collisionsOf vs :=
  List.filterMap_append

theorem collisionsOf_singleton (s : Source) (x : Lexeme) :
    s.collisionsOf [x] = (KeywordCollision.ofToken? x.kind s x.span).toList := by
  cases h : KeywordCollision.ofToken? x.kind s x.span <;> simp [collisionsOf, h]

/-- What is read next is in no stretch of which a word was noted before. -/
theorem Path.span_ne_of_mem (h : s.Path 0 us o) {x : Lexeme} (hx : s.lexeme? o = some x)
    {c : KeywordCollision} (hc : c ∈ s.collisionsOf us) : c.span ≠ x.span := by
  intro heq
  obtain ⟨y, hy, hspan⟩ := span_of_mem_collisionsOf hc
  have := h.start_lt y hy
  have := (lexeme?_bounds hx).1
  rw [← heq, hspan] at this
  omega

/-- No two words are noted of one stretch. -/
theorem Path.nodup_collisionsOf (h : s.Path o us o') :
    ((s.collisionsOf us).map (·.span)).Nodup := by
  induction h with
  | nil _ => exact .nil
  | @cons o o' x xs head tail ih =>
      rw [← List.singleton_append, collisionsOf_append, collisionsOf_singleton]
      cases hx : KeywordCollision.ofToken? x.kind s x.span with
      | none => exact ih
      | some c =>
          refine List.nodup_cons.2 ⟨fun hmem => ?_, ih⟩
          obtain ⟨c', hc', hspan⟩ := List.mem_map.1 hmem
          obtain ⟨y, hy, hyspan⟩ := span_of_mem_collisionsOf hc'
          have hlt := (lexeme?_bounds head).2.1
          have hle := tail.le_start y hy
          have := s.le_skipBlanks x.span.stop
          rw [← hyspan, hspan] at hle
          simp only [span_of_ofToken? hx] at hle
          omega

end Source

/-! ## One step -/

namespace Scanner

@[simp] theorem moveTo_collisions (sc : Scanner) (s : Source) (target : Nat) :
    (sc.moveTo s target).collisions = sc.collisions := by
  rw [moveTo]
  split <;> rfl

/-- A collision that is new is noted. -/
theorem collisions_noteCollision (h : ∀ c ∈ sc.collisions, c.span ≠ t.span) :
    (sc.noteCollision s t).collisions.toList =
      sc.collisions.toList ++ (KeywordCollision.ofToken? t.kind s t.span).toList := by
  rw [noteCollision]
  cases hc : KeywordCollision.ofToken? t.kind s t.span with
  | none => simp
  | some c =>
      have hfresh : ¬ sc.collisions.back?.any (·.span = c.span) = true := by
        rw [Option.any_eq_true_iff_get]
        intro hlast
        obtain ⟨hsome, heq⟩ := hlast
        have hmem := Array.mem_of_back? (Option.some_get hsome).symm
        exact h _ hmem (by simpa [Source.span_of_ofToken? hc] using heq)
      simp only [hfresh]
      simp

theorem collisions_of_advance {sc' : Scanner} (hadv : sc.advance s = .ok (some t) sc')
    (hkind : t.kind ≠ .unknown) (h : ∀ c ∈ sc.collisions, c.span ≠ t.span) :
    sc'.collisions.toList =
      sc.collisions.toList ++ (KeywordCollision.ofToken? t.kind s t.span).toList := by
  rw [advance] at hadv
  simp only at hadv
  split at hadv
  · cases hadv
  · split at hadv
    · cases hadv
    · cases hadv
      rw [moveTo_collisions]
      refine (collisions_noteCollision ?_).trans ?_ <;> rw [moveTo_collisions]
      exact h
    · cases hadv
      exact absurd rfl hkind

/-- The scanner after a step, whatever came of it. -/
def next (sc : Scanner) (s : Source) : Scanner :=
  match sc.advance s with
  | .ok _ next | .error _ next => next

/-- A scanner that has read some tokens from the beginning, and has noted which of them
collide with a reserved word. -/
structure Behind (s : Source) (us : List Lexeme) (sc : Scanner) : Prop where
  reaches : s.Reaches 0 us sc.position
  collisions : sc.collisions.toList = s.collisionsOf us

/-- A step that gives a token leaves the scanner behind it. -/
theorem Behind.advance (h : sc.Behind s us) {x : Lexeme}
    (hx : s.lexeme? sc.position = some x) :
    ∃ t, sc.advance s = .ok (some t) (sc.next s) ∧ t.lexeme = x ∧
      (sc.next s).Behind s (us ++ [x]) := by
  obtain ⟨t, sc', hadv, rfl, hpos⟩ := advance_of_lexeme? hx
  obtain rfl : sc.next s = sc' := by
    rw [next, hadv]
  refine ⟨t, hadv, rfl, ?_, ?_⟩
  · rw [hpos]
    exact h.reaches.trans (.of_lexeme? hx)
  · obtain ⟨m, hpath, hm⟩ := h.reaches
    have hfresh : ∀ c ∈ sc.collisions, c.span ≠ t.lexeme.span := by
      intro c hc
      rw [← Array.mem_toList_iff, h.collisions] at hc
      exact hpath.span_ne_of_mem ((Source.lexeme?_congr hm).trans hx) hc
    have hkind : t.kind ≠ .unknown := Source.kind_ne_unknown hx
    rw [Source.collisionsOf_append, Source.collisionsOf_singleton, ← h.collisions]
    exact collisions_of_advance hadv hkind hfresh

/-- Where there is no token a scanner stays where it is. -/
theorem Behind.stay (h : sc.Behind s us) (hx : s.lexeme? sc.position = none) :
    (sc.next s).Behind s us := by
  obtain ⟨m, hpath, hm⟩ := h.reaches
  have hmoved : Behind s us (sc.moveTo s (s.skipBlanks sc.position)) := by
    refine ⟨⟨m, hpath, ?_⟩, by rw [moveTo_collisions, h.collisions]⟩
    rw [moveTo_position, Nat.max_eq_right (s.le_skipBlanks _), s.skipBlanks_idem, hm]
  rw [next, Scanner.advance]
  simp only
  by_cases hend : s.size ≤ s.skipBlanks sc.position
  · rw [if_pos hend]
    exact hmoved
  · rw [if_neg hend]
    cases hm : matchToken s (s.skipBlanks sc.position) with
    | error e => exact hmoved
    | ok found? =>
        cases found? with
        | none => exact ⟨hmoved.reaches, hmoved.collisions⟩
        | some found =>
            rw [Source.lexeme?_of_matchToken hm] at hx
            cases hx

end Scanner

/-! ## All steps -/

/-- The scanner of a source after so many steps from the beginning. -/
def Source.scanned (s : Source) : Nat → Scanner
  | 0 => .initial
  | n + 1 => (s.scanned n).next s

namespace Source

/-- A scanner is always behind some tokens: after each step behind one more, as long as
there are more. -/
theorem exists_behind (s : Source) (n : Nat) : ∃ us, (s.scanned n).Behind s us := by
  induction n with
  | zero => exact ⟨[], .refl s 0, rfl⟩
  | succ n ih =>
      obtain ⟨us, h⟩ := ih
      cases hx : s.lexeme? (s.scanned n).position with
      | none => exact ⟨us, h.stay hx⟩
      | some x =>
          obtain ⟨t, -, -, hnext⟩ := h.advance hx
          exact ⟨us ++ [x], hnext⟩

/-- Every place on the path is a place to which the scanner comes. -/
theorem Path.behind (h : s.Path 0 us o) : (s.scanned us.length).Behind s us := by
  induction us using List.reverseRecOn generalizing o with
  | nil => exact ⟨.refl s 0, rfl⟩
  | append_singleton us x ih =>
      obtain ⟨m, hinit, hlast⟩ := h.of_append
      have hbehind := ih hinit
      obtain ⟨m', hpath, hm'⟩ := hbehind.reaches
      obtain ⟨-, rfl⟩ := hpath.eq_of_length_eq hinit rfl
      cases hlast with
      | cons head tail =>
          obtain ⟨t, -, -, hnext⟩ := hbehind.advance ((lexeme?_congr hm'.symm).trans head)
          rw [List.length_append, List.length_singleton]
          exact hnext

/-- On a token of the path the scanner comes, and gives it. -/
theorem Path.advance (h : s.Path 0 us o) {x : Lexeme} (hx : s.lexeme? o = some x) :
    ∃ t next, (s.scanned us.length).advance s = .ok (some t) next ∧ t.lexeme = x := by
  have hbehind := h.behind
  obtain ⟨m, hpath, hm⟩ := hbehind.reaches
  obtain ⟨-, rfl⟩ := hpath.eq_of_length_eq h rfl
  obtain ⟨t, hadv, ht, -⟩ := hbehind.advance ((lexeme?_congr hm.symm).trans hx)
  exact ⟨t, _, hadv, ht⟩

/-- Where only blanks are left the scanner has read all tokens. -/
theorem reads_of_behind (h : sc.Behind s us) (hend : sc.isAtEnd s = true) : s.Reads 0 us := by
  obtain ⟨m, hpath, hm⟩ := h.reaches
  refine ⟨m, hpath, ?_⟩
  rw [Scanner.isAtEnd, isSpent] at hend
  rwa [isSpent, hm]

theorem isAtEnd_of_reads (h : s.Reads 0 us) : (s.scanned us.length).isAtEnd s = true := by
  obtain ⟨o, hpath, ho⟩ := h
  obtain ⟨m, hpath', hm⟩ := hpath.behind.reaches
  obtain ⟨-, rfl⟩ := hpath'.eq_of_length_eq hpath rfl
  rw [isSpent] at ho
  rwa [Scanner.isAtEnd, isSpent, ← hm]

end Source

end WeLang
