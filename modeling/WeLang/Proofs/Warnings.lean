import WeLang.Proofs.Advancing
import WeLang.Proofs.Keeping

/-!
# The parser warns of what the scanner notes

The parser notes a reserved word that is read as a name as soon as it reads one,
whatever becomes of the attempt, and it looks through all that it has noted so as not
to note a word twice. It goes back and forth, and still it notes the words in the order
in which they stand: to come to a token it has to have read all tokens before it, and so
what it has noted are always the collisions of a beginning of the path
(`Progress.Warned`).

When all tokens are read, that beginning is the whole path. So the warnings of a parse
that succeeds are what a scanner has noted that has walked through the source once
(`warnings_eq_collisions`).
-/

namespace WeLang

variable {cx : Context} {us : List Lexeme} {p : Progress}

namespace Progress

/-- What a parse has noted behind `us`: the collisions of the tokens up to some place,
which is there or further on. -/
def Warned (src : Source) (us : List Lexeme) (p : Progress) : Prop :=
  ∃ vs o, src.Path 0 vs o ∧ us <+: vs ∧ p.warnings.toList = src.collisionsOf vs

/-- A collision that is new is noted. -/
theorem warnings_noteCollision {kind : TokenKind} {span : Span}
    (h : ∀ c ∈ p.warnings.toList, c.span ≠ span) :
    (p.noteCollision cx kind span).warnings.toList =
      p.warnings.toList ++ (KeywordCollision.ofToken? kind cx.source span).toList := by
  rw [noteCollision]
  cases hc : KeywordCollision.ofToken? kind cx.source span with
  | none => simp
  | some c =>
      have hfresh : ¬ p.warnings.any (·.span = c.span) = true := by
        rw [Array.any_eq_true']
        intro hnoted
        obtain ⟨c', hmem, heq⟩ := hnoted
        refine h c' (Array.mem_toList_iff.2 hmem) ?_
        simpa [Source.span_of_ofToken? hc] using heq
      simp only [hfresh]
      simp

/-- A collision that was noted before is not noted again. -/
theorem noteCollision_of_mem {kind : TokenKind} {span : Span}
    (h : ∀ c, KeywordCollision.ofToken? kind cx.source span = some c →
      c ∈ p.warnings.toList) : p.noteCollision cx kind span = p := by
  rw [noteCollision]
  cases hc : KeywordCollision.ofToken? kind cx.source span with
  | none => rfl
  | some c =>
      refine if_pos (Array.any_eq_true'.2 ⟨c, Array.mem_toList_iff.1 (h c hc), ?_⟩)
      simp

/-- A token is read for the first time where the parse has come to for the first time.
Otherwise its collision is noted already. -/
theorem Warned.found {o : Nat} {x : Lexeme} (hpath : cx.source.Path 0 us o)
    (hx : cx.source.lexeme? o = some x) (h : Warned cx.source us p) :
    Warned cx.source (us ++ [x]) (p.noteCollision cx x.kind x.span) := by
  obtain ⟨vs, o', hvs, ⟨zs, rfl⟩, hw⟩ := h
  obtain ⟨m, hus, hzs⟩ := hvs.of_append
  obtain ⟨-, rfl⟩ := hus.eq_of_length_eq hpath rfl
  cases hzs with
  | nil _ =>
      rw [List.append_nil] at hw
      refine ⟨us ++ [x], _, hpath.append (.cons hx (.nil _)), List.prefix_rfl, ?_⟩
      rw [Source.collisionsOf_append, Source.collisionsOf_singleton, ← hw]
      exact warnings_noteCollision fun c hc => hpath.span_ne_of_mem hx (hw ▸ hc)
  | @cons _ _ z zs head tail =>
      obtain rfl := Option.some.inj (hx.symm.trans head)
      refine ⟨us ++ x :: zs, o', hvs, ⟨zs, by simp⟩, ?_⟩
      rw [noteCollision_of_mem, hw]
      intro c hc
      rw [hw]
      exact List.mem_filterMap.2 ⟨x, by simp, hc⟩

theorem warned_stable (cx : Context) : Stable cx (Warned cx.source) where
  back := by
    intro us xs p h
    obtain ⟨vs, o, hvs, hpre, hw⟩ := h
    exact ⟨vs, o, hvs, (List.prefix_append us xs).trans hpre, hw⟩
  nest _ h := h
  spend h := h
  found hpath hx h := h.found hpath hx
  missing _ _ h := h
  left _ _ h := h

/-- Behind all tokens of a source all collisions are noted. -/
theorem Warned.eq_of_reads {s : Source} {xs : List Lexeme} (hreads : s.Reads 0 xs)
    (h : Warned s xs p) : p.warnings.toList = s.collisionsOf xs := by
  obtain ⟨o, hpath, ho⟩ := hreads
  obtain ⟨vs, o', hvs, ⟨zs, rfl⟩, hw⟩ := h
  obtain ⟨m, hxs, hzs⟩ := hvs.of_append
  obtain ⟨-, rfl⟩ := hxs.eq_of_length_eq hpath rfl
  cases hzs with
  | nil _ => rwa [List.append_nil] at hw
  | cons head _ =>
      rw [Source.lexeme?_of_isSpent ho] at head
      cases head

end Progress

/-- A parse that succeeds has noted the collisions of all tokens. -/
theorem Parse.warnings_of_ok {goal : Goal} {s : Source} {l : Limits} {p : Parsed}
    (h : parse goal s l = .ok p) : ∃ xs, s.Reads 0 xs ∧ p.warnings = s.collisionsOf xs := by
  obtain ⟨found, q, hout, rfl⟩ := parse_eq_ok.1 h
  obtain ⟨xs, (hreads : s.Reads 0 xs), hwarned⟩ := Parse.holds_of_ok
    (Progress.warned_stable ⟨s, l⟩) ⟨[], 0, .nil 0, List.prefix_rfl, rfl⟩ hout
  exact ⟨xs, hreads, hwarned.eq_of_reads hreads⟩

/-- The warnings of a parse are the collisions that a scanner has noted when it has gone
through the whole source: the same words, in the same stretches and in the same order, and
no stretch more than once. -/
theorem warnings_eq_collisions {goal : Goal} {s : Source} {l : Limits} {p : Parsed}
    (h : parse goal s l = .ok p) :
    (∃ n, (s.scanned n).isAtEnd s = true) ∧
    (∀ n, (s.scanned n).isAtEnd s = true → p.warnings = (s.scanned n).collisions.toList) ∧
    (p.warnings.map (·.span)).Nodup := by
  obtain ⟨xs, hreads, hw⟩ := Parse.warnings_of_ok h
  refine ⟨⟨xs.length, Source.isAtEnd_of_reads hreads⟩, fun n hn => ?_, ?_⟩
  · obtain ⟨us, hbehind⟩ := s.exists_behind n
    obtain rfl := hreads.unique (Source.reads_of_behind hbehind hn)
    exact hw.trans hbehind.collisions.symm
  · obtain ⟨o, hpath, -⟩ := hreads
    rw [hw]
    exact hpath.nodup_collisionsOf

/-- Behind a numeral, a reserved word is glued and read as a name, and the scanner has
noted that when it has come to the end. -/
theorem warnings_eq_collisions_glued :
    ∃ p, parse .value ⟨"(1use)"⟩ = .ok p ∧ p.warnings = [⟨⟨2, 5⟩, .useWord⟩] ∧
      (∃ n, (Source.scanned ⟨"(1use)"⟩ n).isAtEnd ⟨"(1use)"⟩ = true) ∧
      ∀ n, (Source.scanned ⟨"(1use)"⟩ n).isAtEnd ⟨"(1use)"⟩ = true →
        (Source.scanned ⟨"(1use)"⟩ n).collisions.toList = [⟨⟨2, 5⟩, .useWord⟩] := by
  obtain ⟨p, h, hw⟩ : ∃ p, parse .value ⟨"(1use)"⟩ = .ok p ∧
      p.warnings = [⟨⟨2, 5⟩, .useWord⟩] :=
    ⟨_, by cbv, rfl⟩
  obtain ⟨hend, hsame, -⟩ := warnings_eq_collisions h
  exact ⟨p, h, hw, hend, fun n hn => (hsame n hn).symm.trans hw⟩

end WeLang
