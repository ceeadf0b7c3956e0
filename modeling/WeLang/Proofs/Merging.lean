import WeLang.Proofs.Reading

/-!
# Misses in any order

Of all the misses of a parse only one is kept, the furthest, and each new one is merged into
it. Merging is not symmetric, for the place where the first of two misses started is kept.
In all else it depends on nothing but which misses there were: what is kept got as far as the
furthest of them, and wants what any of them wanted there (`Miss.Tells`). That is so for a
single miss, and it stays so when two rows of misses are merged. So every way to put a row
in brackets gives the same, and every order gives the same but for the start.

A progress is no exception. It is asked for tokens and for the end of the source, and
whatever comes of that, it recalls the misses among the answers and nothing else
(`Progress.Recalls`). Unless the steps are bounded, whether a request misses does not depend
on what was requested before (`Request.miss?`), and so the order of the requests does not
matter either (`misses_told_in_any_order`).
-/

namespace WeLang

/-! ## Misses merged in any grouping -/

/-- What misses tell together: how far the furthest of them got, with all that any of them
wanted there. -/
structure Miss.Tells (f : Miss) (ms : List Miss) : Prop where
  reached : ∃ m ∈ ms, m.offset = f.offset
  offset_le : ∀ m ∈ ms, m.offset ≤ f.offset
  mem_expected : ∀ k, k ∈ f.expected ↔ ∃ m ∈ ms, m.offset = f.offset ∧ k ∈ m.expected

namespace Miss

variable {f g : Miss} {ms ns : List Miss}

namespace Tells

theorem self (m : Miss) : m.Tells [m] where
  reached := ⟨m, List.mem_cons_self, rfl⟩
  offset_le n hn := by rw [List.mem_singleton.1 hn]
  mem_expected k := by simp

/-- Where the miss started is not told. -/
theorem rebase (h : f.Tells ms) (start : Nat) : (f.rebase start).Tells ms :=
  ⟨h.reached, h.offset_le, h.mem_expected⟩

theorem merge (hf : f.Tells ms) (hg : g.Tells ns) : (f.merge g).Tells (ms ++ ns) where
  reached := by
    rw [offset_merge]
    rcases Nat.le_total f.offset g.offset with hle | hle
    · obtain ⟨n, hn, ho⟩ := hg.reached
      exact ⟨n, List.mem_append_right _ hn, by omega⟩
    · obtain ⟨m, hm, ho⟩ := hf.reached
      exact ⟨m, List.mem_append_left _ hm, by omega⟩
  offset_le := by
    rw [List.forall_mem_append, offset_merge]
    exact ⟨fun m hm => Nat.le_trans (hf.offset_le m hm) (Nat.le_max_left ..),
      fun n hn => Nat.le_trans (hg.offset_le n hn) (Nat.le_max_right ..)⟩
  mem_expected k := by
    rw [mem_merge, offset_merge, hf.mem_expected, hg.mem_expected]
    constructor
    · rintro (⟨hle, m, hm, ho, hk⟩ | ⟨hle, n, hn, ho, hk⟩)
      · exact ⟨m, List.mem_append_left _ hm, by omega, hk⟩
      · exact ⟨n, List.mem_append_right _ hn, by omega, hk⟩
    · rintro ⟨m, hm, ho, hk⟩
      rcases List.mem_append.1 hm with hm | hm
      · have hle := hf.offset_le m hm
        exact .inl ⟨by omega, m, hm, by omega, hk⟩
      · have hle := hg.offset_le m hm
        exact .inr ⟨by omega, m, hm, by omega, hk⟩

theorem foldl (h : f.Tells ms) (ns : List Miss) : (ns.foldl Miss.merge f).Tells (ms ++ ns) := by
  induction ns generalizing f ms with
  | nil => simpa using h
  | cons n ns ih =>
      rw [List.append_cons]
      exact ih (h.merge (self n))

/-- What the same misses tell is the same in any order. -/
theorem unique (hf : f.Tells ms) (hg : g.Tells ns) (h : ms.Perm ns) :
    f.offset = g.offset ∧ f.expected = g.expected := by
  have hoffset : f.offset = g.offset := by
    obtain ⟨m, hm, hmf⟩ := hf.reached
    obtain ⟨n, hn, hng⟩ := hg.reached
    have hle := hg.offset_le m (h.mem_iff.1 hm)
    have hge := hf.offset_le n (h.mem_iff.2 hn)
    omega
  refine ⟨hoffset, TokenSet.ext fun k => ?_⟩
  rw [hf.mem_expected, hg.mem_expected, hoffset]
  exact exists_congr fun m => and_congr_left' h.mem_iff

end Tells

/-- A row of misses in brackets, which say what is merged with what. -/
inductive Grouping where
  | one (m : Miss)
  | both (left right : Grouping)

namespace Grouping

/-- The misses from left to right. -/
def misses : Grouping → List Miss
  | one m => [m]
  | both left right => left.misses ++ right.misses

/-- What comes of merging them so. -/
def merged : Grouping → Miss
  | one m => m
  | both left right => left.merged.merge right.merged

theorem tells : (g : Grouping) → g.merged.Tells g.misses
  | one m => .self m
  | both left right => left.tells.merge right.tells

theorem head?_misses (g : Grouping) : g.misses.head?.map Miss.start = some g.merged.start := by
  induction g with
  | one m => rfl
  | both left right ihl ihr =>
      obtain ⟨first, hfirst, hstart⟩ := Option.map_eq_some_iff.1 ihl
      rw [misses, merged, List.head?_append, hfirst, start_merge, ← hstart]
      rfl

end Grouping

theorem start_foldl_merge (f : Miss) (ms : List Miss) :
    (ms.foldl Miss.merge f).start = f.start := by
  induction ms generalizing f with
  | nil => rfl
  | cons m ms ih => rw [List.foldl_cons, ih, start_merge]

/-- However a row is put in brackets, it comes to what it is merged to from the left. -/
theorem Grouping.merged_eq_foldl {g : Grouping} {m : Miss} (h : g.misses = m :: ms) :
    g.merged = ms.foldl Miss.merge m := by
  have hstart : g.merged.start = (ms.foldl Miss.merge m).start := by
    have hhead := g.head?_misses
    rw [h] at hhead
    rw [start_foldl_merge]
    exact (Option.some.inj hhead).symm
  obtain ⟨hoffset, hexpected⟩ := g.tells.unique ((Tells.self m).foldl ms) (.of_eq h)
  calc
    g.merged = ⟨g.merged.start, g.merged.offset, g.merged.expected⟩ := rfl
    _ = ms.foldl Miss.merge m := by rw [hstart, hoffset, hexpected]

end Miss

/-! ## What a progress recalls -/

/-- A progress whose furthest miss is what some misses tell, kept at the place of the first. -/
structure Progress.Recalls (p : Progress) (ms : List Miss) : Prop where
  furthest_eq_none : p.furthest = .none ↔ ms = []
  tells : ∀ f, p.furthest = some f → f.Tells ms
  start : ∀ f, p.furthest = some f → ms.head?.map Miss.offset = some f.start

namespace Progress

variable {p q : Progress} {ms : List Miss}

theorem recalls_none : none.Recalls [] :=
  ⟨iff_of_true rfl rfl, nofun, nofun⟩

theorem Recalls.congr (h : p.Recalls ms) (hpq : q.furthest = p.furthest) : q.Recalls ms := by
  constructor
  · rw [hpq, h.furthest_eq_none]
  · rw [hpq]
    exact h.tells
  · rw [hpq]
    exact h.start

theorem Recalls.of_furthest {f : Miss} (hf : p.furthest = some f) (htells : f.Tells ms)
    (hstart : ms.head?.map Miss.offset = some f.start) : p.Recalls ms := by
  have hne : ms ≠ [] := by
    obtain ⟨m, hm, -⟩ := htells.reached
    exact List.ne_nil_of_mem hm
  refine ⟨by simp [hf, hne], fun g hg => ?_, fun g hg => ?_⟩
  · cases hf.symm.trans hg
    exact htells
  · cases hf.symm.trans hg
    exact hstart

/-- A miss is noted from its own place, but of that only the first one is kept. -/
theorem Recalls.noteMiss (h : p.Recalls ms) (m : Miss) :
    (p.noteMiss m.offset m.expected).Recalls (ms ++ [m]) := by
  have hplaced : (m.rebase m.offset).Tells [m] := (Miss.Tells.self m).rebase m.offset
  cases hseen : p.furthest with
  | none =>
      obtain rfl := h.furthest_eq_none.1 hseen
      have hnoted : (p.noteMiss m.offset m.expected).furthest = some (m.rebase m.offset) := by
        rw [Progress.noteMiss, hseen, Miss.rebase]
      exact .of_furthest hnoted hplaced rfl
  | some seen =>
      have hnoted : (p.noteMiss m.offset m.expected).furthest =
          some (seen.merge (m.rebase m.offset)) := by
        rw [Progress.noteMiss, hseen, Miss.rebase]
      refine .of_furthest hnoted ((h.tells seen hseen).merge hplaced) ?_
      obtain ⟨first, hfirst, hstart⟩ := Option.map_eq_some_iff.1 (h.start seen hseen)
      rw [List.head?_append, hfirst, Miss.start_merge, ← hstart]
      rfl

end Progress

/-! ## Requests one after the other -/

/-- Something that a parse asks for from an offset on. -/
inductive Request where
  | token (kind : TokenKind) (start : Nat)
  | endOfInput (start : Nat)
deriving DecidableEq, Repr

namespace Request

/-- What comes of it: where it ends, or a failure. -/
def answer (cx : Context) (p : Progress) : Request → EStateM.Result Failure Progress Nat
  | token kind start =>
      match cx.lex kind start p with
      | .ok lexeme p => .ok lexeme.span.stop p
      | .error f p => .error f p
  | endOfInput start => cx.expectEnd start p

/-- What comes of requests that are made one after the other, whatever comes of each: the
misses among the answers, and the progress behind the last. -/
def answerAll (cx : Context) : List Request → Progress → List Miss × Progress
  | [], p => ([], p)
  | r :: rs, p =>
      match r.answer cx p with
      | .ok _ p => answerAll cx rs p
      | .error (.fatal _) p => answerAll cx rs p
      | .error (.miss m) p =>
          let (ms, p) := answerAll cx rs p
          (m :: ms, p)

/-- How a request misses if something else is there. A string that is never closed is no miss
for who asks for a string. -/
def miss? (cx : Context) : Request → Option Miss
  | token kind start =>
      match kind.matchAt cx.source (cx.source.skipBlanks start) with
      | .ok none => some (cx.missOf kind start)
      | _ => none
  | endOfInput start =>
      if cx.source.isSpent start then none else some ⟨start, cx.source.skipBlanks start, ∅⟩

variable {cx : Context} {p : Progress}

/-- A request that misses wants something only if it asks for a token, and then just that. -/
theorem exists_miss?_iff {r : Request} {k : TokenKind} {o : Nat} :
    (∃ m, r.miss? cx = some m ∧ m.offset = o ∧ k ∈ m.expected) ↔
      ∃ start, r = .token k start ∧ cx.source.skipBlanks start = o ∧ ¬ k.Answers cx.source o := by
  cases r with
  | token kind start =>
      rw [miss?]
      constructor
      · rintro ⟨m, hm, rfl, hk⟩
        split at hm
        · next hmatch =>
            cases hm
            obtain rfl := TokenSet.mem_single.1 hk
            exact ⟨start, rfl, rfl, TokenKind.not_answers.2 hmatch⟩
        · cases hm
      · rintro ⟨start, hr, rfl, habsent⟩
        cases hr
        rw [TokenKind.not_answers.1 habsent]
        exact ⟨_, rfl, rfl, TokenSet.mem_single.2 rfl⟩
  | endOfInput start =>
      rw [miss?]
      constructor
      · rintro ⟨m, hm, -, hk⟩
        split at hm
        · cases hm
        · cases hm
          exact absurd hk (TokenSet.not_mem_empty k)
      · rintro ⟨start, hr, -⟩
        cases hr

/-- What the misses of requests tell is how far these got, and the kinds of token that were
requested there. -/
theorem mem_expected_iff_requested {rs : List Request} {f : Miss}
    (h : f.Tells (rs.filterMap (miss? cx))) (k : TokenKind) :
    k ∈ f.expected ↔ ∃ start, .token k start ∈ rs ∧
      cx.source.skipBlanks start = f.offset ∧ ¬ k.Answers cx.source f.offset := by
  rw [h.mem_expected]
  constructor
  · rintro ⟨m, hm, ho, hk⟩
    obtain ⟨r, hr, hmiss⟩ := List.mem_filterMap.1 hm
    obtain ⟨start, rfl, hplace, habsent⟩ := exists_miss?_iff.1 ⟨m, hmiss, ho, hk⟩
    exact ⟨start, hr, hplace, habsent⟩
  · rintro ⟨start, hr, hplace, habsent⟩
    obtain ⟨m, hmiss, ho, hk⟩ := exists_miss?_iff.2 ⟨start, rfl, hplace, habsent⟩
    exact ⟨m, List.mem_filterMap.2 ⟨_, hr, hmiss⟩, ho, hk⟩

/-- The answer to a request, and what becomes of the furthest miss. -/
inductive Answered (cx : Context) (r : Request) (p : Progress) :
    EStateM.Result Failure Progress Nat → Prop
  | found {stop : Nat} {q : Progress} (there : r.miss? cx = none)
      (same : q.furthest = p.furthest) : Answered cx r p (.ok stop q)
  | missed {m : Miss} {q : Progress} (missing : r.miss? cx = some m)
      (noted : q.furthest = (p.noteMiss m.offset m.expected).furthest) :
      Answered cx r p (.error (.miss m) q)
  | refused {e : ParseError} {q : Progress} (there : r.miss? cx = none)
      (same : q.furthest = p.furthest) : Answered cx r p (.error (.fatal e) q)

variable (hsteps : cx.limits.maxSteps = none)
include hsteps

theorem answered (r : Request) (p : Progress) : Answered cx r p (r.answer cx p) := by
  cases r with
  | token kind start =>
      have h := cx.lexed kind start p
      rw [answer]
      generalize cx.lex kind start p = out at h
      cases h with
      | @found x here hkind =>
          subst hkind
          have hmatch := (Source.lexeme?_eq_some.1 here).2.1
          refine .found ?_ (p.spend.furthest_noteCollision ..)
          simp only [miss?, hmatch]
      | missing absent =>
          refine .missed ?_ rfl
          simp only [miss?, TokenKind.not_answers.1 absent]
      | unclosed hkind opened =>
          subst hkind
          rw [Source.OpenString] at opened
          refine .refused ?_ rfl
          simp only [miss?, opened]
      | exhausted spent =>
          cases (Context.affords_of_unlimited hsteps p).symm.trans spent
  | endOfInput start =>
      rw [answer, Context.expectEnd]
      split
      · next hleft =>
          refine .missed ?_ rfl
          simp [miss?, Source.isSpent, hleft]
      · next hend =>
          refine .found ?_ rfl
          simp [miss?, Source.isSpent, Nat.le_of_not_lt hend]

/-- A progress recalls the misses of earlier requests and of these. -/
theorem recalls_answerAll {ms : List Miss} (h : p.Recalls ms) (rs : List Request) :
    (answerAll cx rs p).2.Recalls (ms ++ (answerAll cx rs p).1) := by
  induction rs generalizing p ms with
  | nil => simpa [answerAll] using h
  | cons r rs ih =>
      have hr := answered hsteps r p
      rw [answerAll]
      generalize r.answer cx p = out at hr
      cases hr with
      | found _ same => exact ih (h.congr same)
      | refused _ same => exact ih (h.congr same)
      | @missed m _ _ noted =>
          -- the miss is one of the earlier ones for what is still to come
          rw [List.append_cons]
          exact ih ((h.noteMiss m).congr noted)

theorem misses_answerAll (rs : List Request) (p : Progress) :
    (answerAll cx rs p).1 = rs.filterMap (miss? cx) := by
  induction rs generalizing p with
  | nil => rfl
  | cons r rs ih =>
      have hr := answered hsteps r p
      rw [answerAll]
      generalize r.answer cx p = out at hr
      cases hr with
      | found there _ => rw [List.filterMap_cons_none there, ih]
      | refused there _ => rw [List.filterMap_cons_none there, ih]
      | missed missing _ =>
          rw [List.filterMap_cons_some missing]
          exact congrArg (List.cons _) (ih _)

theorem recalls_requested (rs : List Request) :
    (answerAll cx rs .none).2.Recalls (rs.filterMap (miss? cx)) := by
  rw [← misses_answerAll hsteps rs .none]
  exact recalls_answerAll hsteps Progress.recalls_none rs

/-- The furthest miss, but for its start, is the same when the same is requested in another
order. -/
theorem furthest_answerAll_perm {rs rs' : List Request} (h : rs.Perm rs') :
    (answerAll cx rs .none).2.furthest.map (fun f => (f.offset, f.expected)) =
      (answerAll cx rs' .none).2.furthest.map fun f => (f.offset, f.expected) := by
  have hperm := h.filterMap (miss? cx)
  have hleft := recalls_requested hsteps rs
  have hright := recalls_requested hsteps rs'
  cases hf : (answerAll cx rs .none).2.furthest with
  | none =>
      rw [hleft.furthest_eq_none.1 hf] at hperm
      rw [hright.furthest_eq_none.2 hperm.nil_eq.symm]
  | some f =>
      cases hg : (answerAll cx rs' .none).2.furthest with
      | none =>
          rw [hright.furthest_eq_none.1 hg] at hperm
          rw [hleft.furthest_eq_none.2 hperm.eq_nil] at hf
          cases hf
      | some g =>
          obtain ⟨hoffset, hexpected⟩ := (hleft.tells f hf).unique (hright.tells g hg) hperm
          rw [Option.map_some, Option.map_some, hoffset, hexpected]

end Request

/-- Without a bound on the steps, a progress is asked for tokens and for the end of the source
any number of times. Then the furthest miss is what the misses among the answers tell: there
is none if there were none, and else it got as far as the furthest of them, wants the kinds of
token that were asked for in that place in vain, and is kept at the place of the first. In
whatever order one asks, it got as far and wants the same. Misses that are merged in a row
give the same in any grouping, the start being that of the first; and in any order they give
the same but for the start. -/
theorem misses_told_in_any_order {cx : Context} (hsteps : cx.limits.maxSteps = none) :
    (∀ rs ms p, Request.answerAll cx rs .none = (ms, p) →
      ms = rs.filterMap (Request.miss? cx) ∧
      (p.furthest = none ↔ ms = []) ∧
      ∀ f, p.furthest = some f →
        f.Tells ms ∧ ms.head?.map Miss.offset = some f.start ∧
        ∀ k, k ∈ f.expected ↔ ∃ start, .token k start ∈ rs ∧
          cx.source.skipBlanks start = f.offset ∧ ¬ k.Answers cx.source f.offset) ∧
    (∀ rs rs' : List Request, rs.Perm rs' →
      (Request.answerAll cx rs .none).2.furthest.map (fun f => (f.offset, f.expected)) =
        (Request.answerAll cx rs' .none).2.furthest.map fun f => (f.offset, f.expected)) ∧
    ∀ (m : Miss) (ms : List Miss),
      (∀ g : Miss.Grouping, g.misses = m :: ms → g.merged = ms.foldl Miss.merge m) ∧
      (ms.foldl Miss.merge m).Tells (m :: ms) ∧ (ms.foldl Miss.merge m).start = m.start ∧
      ∀ (n : Miss) (ns : List Miss), (m :: ms).Perm (n :: ns) →
        (ms.foldl Miss.merge m).offset = (ns.foldl Miss.merge n).offset ∧
        (ms.foldl Miss.merge m).expected = (ns.foldl Miss.merge n).expected := by
  refine ⟨fun rs ms p h => ?_, fun rs rs' => Request.furthest_answerAll_perm hsteps,
    fun m ms => ⟨fun g => Miss.Grouping.merged_eq_foldl, (Miss.Tells.self m).foldl ms,
      Miss.start_foldl_merge m ms, fun n ns hperm => ?_⟩⟩
  · have hmisses := Request.misses_answerAll hsteps rs .none
    have hrecalls := Request.recalls_requested hsteps rs
    rw [h] at hmisses hrecalls
    subst hmisses
    refine ⟨rfl, hrecalls.furthest_eq_none, fun f hf => ?_⟩
    have htells := hrecalls.tells f hf
    exact ⟨htells, hrecalls.start f hf, Request.mem_expected_iff_requested htells⟩
  · exact ((Miss.Tells.self m).foldl ms).unique ((Miss.Tells.self n).foldl ns) hperm

/-- A numeral is asked for where a name is, and behind the name two marks and the end, where a
string is that is never closed. From the last to the first they tell the same. -/
theorem misses_told_in_any_order_unclosed :
    ∃ (rs : List Request) (ms : List Miss) (p : Progress) (f : Miss),
      Request.answerAll ⟨⟨"x \"y"⟩, .standard⟩ rs .none = (ms, p) ∧ ms.length = 4 ∧
      p.furthest = some f ∧ f.Tells ms ∧ f.start = 0 ∧ f.offset = 2 ∧
      f.expected = .ofList [.symbol .listStart, .symbol .listEnd] ∧
      (Request.answerAll ⟨⟨"x \"y"⟩, .standard⟩ rs.reverse .none).2.furthest.map
        (fun f => (f.offset, f.expected)) = some (f.offset, f.expected) := by
  let rs : List Request := [.token .integer 0, .token .identifier 0, .token (.symbol .listStart) 1,
    .token .string 1, .endOfInput 1, .token (.symbol .listEnd) 2]
  obtain ⟨hanswers, horder, -⟩ :=
    @misses_told_in_any_order ⟨⟨"x \"y"⟩, .standard⟩ rfl
  have hrun : (Request.answerAll ⟨⟨"x \"y"⟩, .standard⟩ rs .none).1.length = 4 ∧
      (Request.answerAll ⟨⟨"x \"y"⟩, .standard⟩ rs .none).2.furthest =
        some ⟨0, 2, .ofList [.symbol .listStart, .symbol .listEnd]⟩ := by
    cbv
  obtain ⟨hlength, hf⟩ := hrun
  obtain ⟨-, -, htells⟩ := hanswers rs _ _ rfl
  refine ⟨rs, _, _, _, rfl, hlength, hf, (htells _ hf).1, rfl, rfl, rfl, ?_⟩
  rw [horder rs.reverse rs rs.reverse_perm, hf, Option.map_some]

end WeLang
