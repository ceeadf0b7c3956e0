import WeLang.Proofs.Reading

/-!
# Patterns put together from lists

The contract of matchers is proved by induction over all patterns. Whoever puts a
pattern together does not write `andThen` and `never`, however, but lists: a sequence
of patterns, a choice among patterns. `Pattern.Composed` is what can be built that way,
nested as deep as one likes, and the contract holds of all of it, in whatever state and
wherever a matcher is asked (`step_contract`).

There is one thing to look out for. A choice among nothing misses without making it
known, so the progress may not know of any miss at all; that is why a choice needs an
alternative.
-/

namespace WeLang

variable {cx : Context}

/-- The patterns that are put together from tokens, of which the draft takes note as it
likes or refuses to, and the end of the source. -/
inductive Pattern.Composed {ν : Type} : Pattern ν → Prop
  | token (kind : TokenKind) (note : Lexeme → Edit) : Composed (.token kind note)
  | endOfInput : Composed .endOfInput
  | sequence {ps : List (Pattern ν)} (all : ∀ p ∈ ps, p.Composed) : Composed (.sequence ps)
  | firstOf {ps : List (Pattern ν)} (nonempty : ps ≠ []) (all : ∀ p ∈ ps, p.Composed) :
      Composed (.firstOf ps)
  | optional {p : Pattern ν} (inner : p.Composed) : Composed (.optional p)
  | many {p : Pattern ν} (inner : p.Composed) : Composed (.many p)
  | separated {item : Pattern ν} (inner : item.Composed) (separator : TokenKind) :
      Composed (.separated item separator)
  | child {p : Pattern ν} (inner : p.Composed) (attach : Node → Edit) :
      Composed (.child p attach)
  | andEdit {p : Pattern ν} (inner : p.Composed) (edit : Draft → Edit) :
      Composed (.andEdit p edit)
  | ref (name : ν) : Composed (.ref name)

/-! ## No cause is excluded -/

theorem refusals_any (cx : Context) : Refusals cx fun _ => True :=
  ⟨fun _ _ => trivial, trivial, trivial⟩

instance : ContentRefusals fun _ => True :=
  ⟨fun _ => trivial, fun _ _ => trivial, fun _ => trivial⟩

theorem Edit.refusedFor_any (edit : Edit) : edit.RefusedFor fun _ => True :=
  fun _ _ _ _ => trivial

namespace Pattern

variable {ν : Type} {E : ParseError.Cause → Prop}

theorem sequence_honest {ps : List (Pattern ν)} (h : ∀ p ∈ ps, p.Honest E) :
    (sequence ps).Honest E := by
  induction ps with
  | nil => exact trivial
  | cons p ps ih =>
      exact ⟨h p (List.mem_cons_self ..), ih fun q hq => h q (List.mem_cons_of_mem _ hq)⟩

theorem Composed.honest {p : Pattern ν} (h : p.Composed) : p.Honest fun _ => True := by
  induction h with
  | token kind note => exact fun x => (note x).refusedFor_any
  | endOfInput | ref _ => exact trivial
  | sequence _ ih => exact sequence_honest ih
  | firstOf nonempty _ ih => exact firstOf_honest nonempty ih
  | optional _ ih | many _ ih | separated _ _ ih => exact ih
  | child _ attach ih => exact ⟨ih, fun n => (attach n).refusedFor_any⟩
  | andEdit _ edit ih => exact ⟨ih, fun d => (edit d).refusedFor_any⟩

theorem Composed.lawful {p : Pattern Nonterminal} (h : p.Composed) (cx : Context) :
    Matcher.Lawful cx (fun _ => True) (p.run cx (Grammar.meaning cx)) :=
  Pattern.run_lawful (refusals_any cx)
    (fun _ => Grammar.valueWithin_lawful_of (refusals_any cx) _) h.honest

end Pattern

/-! ## What has come of the progress -/

theorem Kept.progress_later {E : ParseError.Cause → Prop} {start : Nat} {s : State} {out : Step}
    (h : Kept cx E start s out) : s.progress.Later out.progress := by
  cases h with
  | ok _ _ later => exact later
  | miss _ _ _ _ later => exact later
  | fatal _ later => exact later

namespace Progress.Later

variable {p q : Progress}

theorem steps_le (h : p.Later q) : p.steps ≤ q.steps := by
  have := h.attempts
  simp only [Progress.steps]
  omega

/-- The furthest miss is never forgotten, only overtaken. -/
theorem furthest_le (h : p.Later q) {f : Miss} (hf : p.furthest = some f) :
    ∃ g, q.furthest = some g ∧ f.offset ≤ g.offset := by
  have hknown : p.Covers f := ⟨f, hf, .inr ⟨rfl, fun _ hk => hk⟩⟩
  obtain ⟨g, hg, hfar⟩ := h.covers hknown
  exact ⟨g, hg, by omega⟩

end Progress.Later

/-! ## The contract of a step -/

theorem step_contract {p : Pattern Nonterminal} (h : p.Composed) (cx : Context) (start : Nat)
    (s : State) :
    (∀ stop t, p.run cx (Grammar.meaning cx) start s = .ok stop t →
      start ≤ stop ∧ stop ≤ max start cx.source.size) ∧
    (∀ m t, p.run cx (Grammar.meaning cx) start s = .error (.miss m) t →
      m.start = start ∧ start ≤ m.offset ∧ m.offset ≤ max start cx.source.size ∧
        ∃ f, t.progress.furthest = some f ∧ m.offset ≤ f.offset ∧
          (f.offset = m.offset → ∀ k, k ∈ m.expected → k ∈ f.expected)) ∧
    ∀ q, (p.run cx (Grammar.meaning cx) start s).progress = q →
      q.depth = s.progress.depth ∧ s.progress.steps ≤ q.steps ∧
        (∀ f, s.progress.furthest = some f →
          ∃ g, q.furthest = some g ∧ f.offset ≤ g.offset) ∧
        ∃ more, q.warnings = s.progress.warnings ++ more := by
  have hkept := h.lawful cx start s
  refine ⟨fun stop t hrun => ?_, fun m t hrun => ?_, fun q hq => ?_⟩
  · rw [hrun] at hkept
    cases hkept with
    | ok le bound _ => exact ⟨le, bound⟩
  · rw [hrun] at hkept
    cases hkept with
    | miss start_eq le bound covers _ =>
        obtain ⟨f, hf, hfar⟩ := covers
        exact ⟨start_eq, le, bound, f, hf, by omega,
          fun heq => (hfar.resolve_left (by omega)).2⟩
  · have hlater : s.progress.Later q := hq ▸ hkept.progress_later
    exact ⟨hlater.depth, hlater.steps_le, fun f hf => hlater.furthest_le hf, hlater.warnings⟩

/-- Numerals up to the end, and then a name: the end is missed behind the last numeral,
and the furthest miss is there too. -/
theorem step_contract_numerals :
    ∃ m t, (Pattern.sequence [.many (.expect .integer), .endOfInput]).run ⟨⟨"1 2 x"⟩, .standard⟩
        (Grammar.meaning ⟨⟨"1 2 x"⟩, .standard⟩) 0 .initial = .error (.miss m) t ∧
      m.start = 0 ∧ m.offset = 4 ∧ ∃ f, t.progress.furthest = some f ∧ 4 ≤ f.offset := by
  have hcomposed : (Pattern.sequence [.many (.expect .integer), .endOfInput] :
      Pattern Nonterminal).Composed := by
    refine .sequence ?_
    simp only [List.forall_mem_cons, List.not_mem_nil, false_implies, implies_true, and_true]
    exact ⟨.many (.token ..), .endOfInput⟩
  obtain ⟨m, t, hrun, hoffset⟩ : ∃ m t,
      (Pattern.sequence [.many (.expect .integer), .endOfInput]).run ⟨⟨"1 2 x"⟩, .standard⟩
        (Grammar.meaning ⟨⟨"1 2 x"⟩, .standard⟩) 0 .initial = .error (.miss m) t ∧
      m.offset = 4 :=
    ⟨_, _, by cbv, rfl⟩
  obtain ⟨-, hmiss, -⟩ := step_contract hcomposed ⟨⟨"1 2 x"⟩, .standard⟩ 0 .initial
  obtain ⟨hstart, -, -, f, hf, hfar, -⟩ := hmiss m t hrun
  exact ⟨m, t, hrun, hstart, hoffset, f, hf, hoffset ▸ hfar⟩

end WeLang
