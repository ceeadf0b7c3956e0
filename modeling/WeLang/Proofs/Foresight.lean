import WeLang.Proofs.Cutting
import WeLang.Proofs.Furthest
import WeLang.Proofs.Twins

/-!
# An error does not look past its token

Let a parse fail at a token that should not be there. Then the tokens up to there,
itself included, are not the beginning of a sentence. A parser never asks for anything
behind a place unless what it has read up to there is the beginning of one, so it has
never asked for anything behind that token; and it cannot tell the source from another
one that begins with the same tokens. `Siblings` are two such sources.

Where the tokens before an offset are the beginning of a sentence, the same token is
next in both sources (`Siblings.Abreast.next`), and whoever asks for a token there gets
the same answer in both. So the two parses are not only alike, as those of two sources
with the same tokens throughout are; they are the same run, attempt for attempt
(`Siblings.Alike`).

The blanks are the one thing in which such sources may differ before the token, and only
in which blanks they are: where the tokens stand is the same in both.
-/

namespace WeLang

/-- Two sources that begin with the same tokens, which are not the beginning of a
sentence, and limits for a parse of either. -/
structure Siblings where
  left : Source
  right : Source
  limits : Limits
  Sentence : List TokenKind → Prop
  xs : List Lexeme
  path_left : ∃ o, left.Path 0 xs o
  path_right : ∃ o, right.Path 0 xs o
  dead : ¬ Viable Sentence (xs.map Lexeme.kind)

namespace Siblings

variable {w : Siblings} {us vs : List Lexeme} {o : Nat}

/-- The left of two parses. -/
def leftCx (w : Siblings) : Context :=
  ⟨w.left, w.limits⟩

/-- The right of two parses. -/
def rightCx (w : Siblings) : Context :=
  ⟨w.right, w.limits⟩

/-- Whether tokens can be continued to a sentence. -/
def Alive (w : Siblings) (us : List Lexeme) : Prop :=
  Viable w.Sentence (us.map Lexeme.kind)

/-- The two sources the other way round. -/
def swap (w : Siblings) : Siblings :=
  ⟨w.right, w.left, w.limits, w.Sentence, w.xs, w.path_right, w.path_left, w.dead⟩

theorem Alive.of_append (h : w.Alive (us ++ vs)) : w.Alive us := by
  rw [Alive, List.map_append] at h
  exact Viable.of_append h

/-! ## Offsets -/

/-- Where the tokens before an offset can be continued, one of the common tokens is
next. -/
theorem next_left (h : w.left.Reaches 0 us o) (hv : w.Alive us) :
    ∃ y, us ++ [y] <+: w.xs ∧ w.left.lexeme? o = some y := by
  obtain ⟨m, hpath, hm⟩ := h
  obtain ⟨a, hxs⟩ := w.path_left
  rcases hpath.total hxs with ⟨zs, hzs, hrest⟩ | ⟨zs, rfl, -⟩
  · cases hrest with
    | nil _ =>
        rw [List.append_nil] at hzs
        exact absurd (hzs ▸ hv) w.dead
    | @cons _ _ y zs head _ =>
        refine ⟨y, ⟨zs, ?_⟩, (Source.lexeme?_congr hm).symm.trans head⟩
        rw [hzs, List.append_assoc, List.singleton_append]
  · exact absurd hv.of_append w.dead

/-- An offset is not behind more tokens in one source than in the other. -/
theorem length_le (h : w.left.Reaches 0 us o) (h' : w.right.Reaches 0 vs o)
    (hv : w.Alive us) (hv' : w.Alive vs) : vs.length ≤ us.length := by
  obtain ⟨y, hus, hy⟩ := w.next_left h hv
  obtain ⟨z, hvs, -⟩ := w.swap.next_left h' hv'
  have hvs : vs <+: w.xs := (List.prefix_append vs [z]).trans hvs
  by_contra hlt
  -- then `y` is read before the offset on the right, and behind it on the left
  have hmem : y ∈ vs := by
    have hpre : us ++ [y] <+: vs := by
      refine List.prefix_of_prefix_length_le hus hvs ?_
      rw [List.length_append, List.length_singleton]
      omega
    exact hpre.subset (by simp)
  obtain ⟨m, hpath, hm⟩ := h'
  have hbefore := hpath.start_lt y hmem
  have hle := (Source.lexeme?_bounds hy).1
  have hm_le := w.right.le_skipBlanks m
  obtain ⟨a, ha⟩ := hpath.exists_lexeme? y hmem
  have hstart := (Source.lexeme?_eq_some.1 ha).1
  have hskip := Source.skipBlanks_of_le (s := w.right) hle (by omega)
  rw [hstart, Source.skipBlanks_idem] at hskip
  omega

theorem eq_of_reaches (h : w.left.Reaches 0 us o) (h' : w.right.Reaches 0 vs o)
    (hv : w.Alive us) (hv' : w.Alive vs) : us = vs := by
  obtain ⟨y, hus, -⟩ := w.next_left h hv
  obtain ⟨z, hvs, -⟩ := w.swap.next_left h' hv'
  have hle := length_le h h' hv hv'
  have hge := w.swap.length_le h' h hv' hv
  have hus : us <+: w.xs := (List.prefix_append us [y]).trans hus
  have hvs : vs <+: w.xs := (List.prefix_append vs [z]).trans hvs
  exact (List.prefix_of_prefix_length_le hus hvs hge).eq_of_length (by omega)

/-- An offset that is behind the same tokens in both sources. -/
structure Abreast (w : Siblings) (us : List Lexeme) (o : Nat) : Prop where
  left : w.left.Reaches 0 us o
  right : w.right.Reaches 0 us o

namespace Abreast

theorem zero (w : Siblings) : w.Abreast [] 0 :=
  ⟨.refl _ 0, .refl _ 0⟩

/-- The same token is next in both sources. -/
theorem next (h : w.Abreast us o) (hv : w.Alive us) :
    ∃ y, w.left.lexeme? o = some y ∧ w.right.lexeme? o = some y := by
  obtain ⟨y, hpre, hy⟩ := w.next_left h.left hv
  obtain ⟨z, hpre', hz⟩ := w.swap.next_left h.right hv
  have heq := (List.prefix_of_prefix_length_le hpre hpre' (by simp)).eq_of_length (by simp)
  obtain rfl : y = z := by simpa using heq
  exact ⟨y, hy, hz⟩

/-- More is left in both sources, from the same offset on. -/
theorem skipBlanks_eq (h : w.Abreast us o) (hv : w.Alive us) :
    w.left.skipBlanks o = w.right.skipBlanks o := by
  obtain ⟨y, hy, hy'⟩ := h.next hv
  exact (Source.lexeme?_eq_some.1 hy).1.symm.trans (Source.lexeme?_eq_some.1 hy').1

theorem isSpent_eq_false (h : w.Abreast us o) (hv : w.Alive us) :
    w.left.isSpent o = false ∧ w.right.isSpent o = false := by
  obtain ⟨y, hy, hy'⟩ := h.next hv
  exact ⟨Source.isSpent_of_lexeme? hy, Source.isSpent_of_lexeme? hy'⟩

theorem lt_size (h : w.Abreast us o) (hv : w.Alive us) :
    o < w.left.size ∧ o < w.right.size := by
  obtain ⟨y, hy, hy'⟩ := h.next hv
  have := Source.lexeme?_bounds hy
  have := Source.lexeme?_bounds hy'
  omega

theorem tooDeep_eq (h : w.Abreast us o) (hv : w.Alive us) :
    w.leftCx.tooDeep o = w.rightCx.tooDeep o := by
  simp only [Context.tooDeep, leftCx, rightCx, h.skipBlanks_eq hv]

/-- Whoever asks for a token gets the same answer in both sources. -/
theorem lex_eq (h : w.Abreast us o) (hv : w.Alive us) (k : TokenKind) (p : Progress) :
    w.leftCx.lex k o p = w.rightCx.lex k o p := by
  obtain ⟨y, hy, hy'⟩ := h.next hv
  cases hp : w.limits.exceeded? p.spend.steps with
  | some limit =>
      have hlt := h.lt_size hv
      have hmin : min o w.left.size = min o w.right.size := by omega
      simp only [Context.lex, leftCx, rightCx, hp, hmin]
  | none =>
      have hp_left : w.leftCx.Affords p := hp
      have hp_right : w.rightCx.Affords p := hp
      by_cases hk : k = y.kind
      · subst hk
        have hsame : KeywordCollision.ofToken? y.kind w.left y.span =
            KeywordCollision.ofToken? y.kind w.right y.span := by
          rw [KeywordCollision.ofToken?_of_lexeme? hy, KeywordCollision.ofToken?_of_lexeme? hy']
        rw [Context.lex_of_lexeme? hp_left hy, Context.lex_of_lexeme? hp_right hy']
        simp only [Progress.noteCollision, leftCx, rightCx, hsame]
      · rw [Context.lex_of_ne hp_left hy hk, Context.lex_of_ne hp_right hy' hk]
        simp only [Context.missOf, leftCx, rightCx, h.skipBlanks_eq hv]

end Abreast

/-! ## Matchers -/

open Matcher

/-- Two matchers that do the same wherever all that is in a language may come. -/
def Alike (w : Siblings) (L : List TokenKind → Prop) (p p' : Matcher) : Prop :=
  ∀ us start s, w.Abreast us start →
    (∀ v, L v → Viable w.Sentence (us.map Lexeme.kind ++ v)) → p start s = p' start s

variable {L M : List TokenKind → Prop} {p p' q q' : Matcher}

theorem alive_of_language (hL : ∃ v, L v)
    (hv : ∀ v, L v → Viable w.Sentence (us.map Lexeme.kind ++ v)) : w.Alive us := by
  obtain ⟨v, hmem⟩ := hL
  exact (hv v hmem).of_append

/-- What two matchers read when they do the same is the same. -/
theorem Abreast.after {start next : Nat} {s t t' : State} (h : w.Abreast us start)
    (hp : Within w.leftCx L p) (hp' : Within w.rightCx L p')
    (hv : ∀ v, L v → Viable w.Sentence (us.map Lexeme.kind ++ v))
    (hrun : p start s = .ok next t) (hrun' : p' start s = .ok next t') :
    ∃ ys, w.Abreast (us ++ ys) next ∧ L (ys.map Lexeme.kind) := by
  obtain ⟨ys, hys, hL⟩ := hp.reads hrun
  obtain ⟨ys', hys', hL'⟩ := hp'.reads hrun'
  have halive : w.Alive (us ++ ys) := by
    rw [Alive, List.map_append]
    exact hv _ hL
  have halive' : w.Alive (us ++ ys') := by
    rw [Alive, List.map_append]
    exact hv _ hL'
  have hsame := eq_of_reaches (h.left.trans hys) (h.right.trans hys') halive halive'
  exact ⟨ys, ⟨h.left.trans hys, hsame ▸ h.right.trans hys'⟩, hL⟩

theorem token_alike (w : Siblings) (kind : TokenKind) (note : Lexeme → Edit) :
    w.Alike (· = [kind]) (token w.leftCx kind note) (token w.rightCx kind note) := by
  intro us start s h hv
  rw [token, token, h.lex_eq (alive_of_language (L := (· = [kind])) ⟨_, rfl⟩ hv)]

theorem endOfInput_alike (w : Siblings) :
    w.Alike (· = []) (endOfInput w.leftCx) (endOfInput w.rightCx) := by
  intro us start s h hv
  have halive := alive_of_language (L := (· = [])) ⟨_, rfl⟩ hv
  obtain ⟨hleft, hright⟩ := h.isSpent_eq_false halive
  rw [endOfInput_eq, endOfInput_eq]
  simp only [leftCx, rightCx, hleft, hright, h.skipBlanks_eq halive]

theorem Alike.same (p : Matcher) : w.Alike L p p :=
  fun _ _ _ _ _ => rfl

theorem Alike.mono (h : w.Alike M p p') (hLM : ∀ v, M v → L v) : w.Alike L p p' :=
  fun us start s hus hv => h us start s hus fun v hmem => hv v (hLM v hmem)

theorem andThen_alike (hp : w.Alike L p p') (hq : w.Alike M q q') (hM : ∃ v, M v)
    (hin : Within w.leftCx L p) (hin' : Within w.rightCx L p') :
    w.Alike (fun v => ∃ u u', v = u ++ u' ∧ L u ∧ M u') (andThen p q) (andThen p' q') := by
  intro us start s h hv
  have hvp : ∀ u, L u → Viable w.Sentence (us.map Lexeme.kind ++ u) := by
    intro u hu
    obtain ⟨u', hu'⟩ := hM
    have := hv (u ++ u') ⟨u, u', rfl, hu, hu'⟩
    rw [← List.append_assoc] at this
    exact this.of_append
  have hsame := hp us start s h hvp
  rw [andThen, andThen, ← hsame]
  cases hrun : p start s with
  | error f t => rfl
  | ok next t =>
      obtain ⟨ys, hnext, hL⟩ := h.after hin hin' hvp hrun (hsame.symm.trans hrun)
      simp only
      rw [hq (us ++ ys) next t hnext]
      intro u hu
      rw [List.map_append, List.append_assoc]
      exact hv _ ⟨_, u, rfl, hL, hu⟩

theorem orElse_alike (hp : w.Alike L p p') (hq : w.Alike M q q') :
    w.Alike (fun v => L v ∨ M v) (orElse p q) (orElse p' q') := by
  intro us start s h hv
  rw [orElse, orElse, ← hp us start s h fun u hu => hv u (.inl hu)]
  cases p start s with
  | ok next t => rfl
  | error f t =>
      cases f with
      | fatal e => rfl
      | miss m =>
          simp only
          rw [hq us start _ h fun u hu => hv u (.inr hu)]

theorem optional_alike (hp : w.Alike L p p') :
    w.Alike (fun v => v = [] ∨ L v) (optional p) (optional p') := by
  intro us start s h hv
  rw [Matcher.optional, Matcher.optional, hp us start s h fun u hu => hv u (.inr hu)]

theorem ahead_alike (hp : w.Alike L p p') : w.Alike L (ahead p) (ahead p') := by
  intro us start s h hv
  rw [ahead, ahead, hp us start s h hv]

/-! ## Repetitions -/

/-- Rounds that are the same have the repetition in common: each of them starts where more
is left in both sources. -/
theorem rounds_alike {round round' : Nat → State → Round} (hM : M [])
    (hin : RoundWithin w.leftCx M round) (hin' : RoundWithin w.rightCx M round')
    (hround : ∀ us pos s, w.Abreast us pos →
      (∀ v, M v → Viable w.Sentence (us.map Lexeme.kind ++ v)) → round pos s = round' pos s) :
    w.Alike M (rounds w.leftCx.source.size round) (rounds w.rightCx.source.size round') := by
  intro us start s h hv
  refine rounds_induction (motive := fun pos s out => ∀ us, w.Abreast us pos →
    (∀ v, M v → Viable w.Sentence (us.map Lexeme.kind ++ v)) →
      out = rounds w.rightCx.source.size round' pos s) ?_ ?_ ?_ ?_ start s us h hv
  · intro pos s stop s' hr us h hv
    rw [rounds, ← hround us pos s h hv, hr]
  · intro pos s e s' hr us h hv
    rw [rounds, ← hround us pos s h hv, hr]
  · intro pos s next s' hr hlast us h hv
    have hlt : pos < w.leftCx.source.size := (h.lt_size (alive_of_language ⟨_, hM⟩ hv)).1
    rw [rounds, ← hround us pos s h hv, hr]
    exact (if_neg (by omega)).symm
  · intro pos s next s' hr hnext _ ih us h hv
    have hsame := hround us pos s h hv
    have hlt : pos < w.rightCx.source.size := (h.lt_size (alive_of_language ⟨_, hM⟩ hv)).2
    obtain ⟨ys, hys, hcont⟩ := hin.again hr
    obtain ⟨ys', hys', hcont'⟩ := hin'.again (hsame.symm.trans hr)
    have hagain {ys : List Lexeme} (hcont : ∀ v, M v → M (ys.map Lexeme.kind ++ v)) :
        ∀ v, M v → Viable w.Sentence ((us ++ ys).map Lexeme.kind ++ v) := by
      intro v hmem
      rw [List.map_append, List.append_assoc]
      exact hv _ (hcont v hmem)
    have heq := eq_of_reaches (h.left.trans hys) (h.right.trans hys')
      (alive_of_language ⟨_, hM⟩ (hagain hcont)) (alive_of_language ⟨_, hM⟩ (hagain hcont'))
    have hrest := ih (us ++ ys) ⟨h.left.trans hys, heq ▸ h.right.trans hys'⟩ (hagain hcont)
    rw [hrest, rounds.eq_def _ round' pos s, ← hsame, hr]
    exact (if_pos ⟨hnext, hlt⟩).symm

theorem many_alike (hp : w.Alike L p p') (hin : Within w.leftCx L p)
    (hin' : Within w.rightCx L p') :
    w.Alike (Language.Repeated L) (many w.leftCx p) (many w.rightCx p') := by
  refine rounds_alike (Language.repeated_nil L) (manyRound_within hin) (manyRound_within hin') ?_
  intro us pos s h hv
  rw [manyRound, manyRound, hp us pos s h fun u hu => hv u (Language.repeated_singleton hu)]

theorem separatedRound_alike (hp : w.Alike L p p') (separator : TokenKind) {pos : Nat}
    {s : State} (h : w.Abreast us pos)
    (hv : ∀ v, Language.Further L separator v →
      Viable w.Sentence (us.map Lexeme.kind ++ v)) :
    separatedRound w.leftCx p separator pos s = separatedRound w.rightCx p' separator pos s := by
  have hvsep : ∀ v, v = [separator] → Viable w.Sentence (us.map Lexeme.kind ++ v) :=
    fun v heq => hv v (heq ▸ Language.further_separator L separator)
  have hsame := token_alike w separator (fun _ => pure ()) us pos s h hvsep
  rw [separatedRound, separatedRound, expect, expect, ← hsame]
  cases hrun : token w.leftCx separator (fun _ => pure ()) pos s with
  | error f t => cases f <;> rfl
  | ok next t =>
      obtain ⟨ys, hnext, hk⟩ := h.after (token_within _ separator _) (token_within _ separator _)
        hvsep hrun (hsame.symm.trans hrun)
      simp only
      rw [hp (us ++ ys) next t hnext]
      intro u hu
      rw [List.map_append, List.append_assoc, hk]
      exact hv _ (Language.further_singleton hu separator)

theorem separated_alike (hp : w.Alike L p p') (hin : Within w.leftCx L p)
    (hin' : Within w.rightCx L p') (separator : TokenKind) :
    w.Alike (Language.Separated L separator) (separated w.leftCx p separator)
      (separated w.rightCx p' separator) := by
  intro us start s h hv
  have hvp : ∀ u, L u → Viable w.Sentence (us.map Lexeme.kind ++ u) :=
    fun u hu => hv u (Language.separated_singleton hu separator)
  have hsame := hp us start s h hvp
  rw [separated, separated, ← hsame]
  cases hrun : p start s with
  | error f t => cases f <;> rfl
  | ok next t =>
      obtain ⟨ys, hnext, hL⟩ := h.after hin hin' hvp hrun (hsame.symm.trans hrun)
      refine rounds_alike (Language.further_nil L separator) (separatedRound_within hin separator)
        (separatedRound_within hin' separator)
        (fun us pos s h hv => separatedRound_alike hp separator h hv) _ next t hnext
        fun v hmem => ?_
      rw [List.map_append, List.append_assoc]
      exact hv _ (hmem.separated hL)

/-! ## Nodes -/

theorem child_alike (hp : w.Alike L p p') (hL : ∃ v, L v) (attach : Node → Edit) :
    w.Alike L (child w.leftCx p attach) (child w.rightCx p' attach) := by
  intro us start s h hv
  have halive := alive_of_language hL hv
  rcases Nat.lt_or_ge s.progress.depth w.limits.maxDepth with hroom | hfull
  · have hleft : child w.leftCx p attach start s = _ := child_of_room hroom
    have hright : child w.rightCx p' attach start s = _ := child_of_room hroom
    rw [hleft, hright, hp us start _ h hv]
    simp only [leftCx, rightCx, h.skipBlanks_eq halive]
  · have hleft : child w.leftCx p attach start s = _ := child_of_full hfull
    have hright : child w.rightCx p' attach start s = _ := child_of_full hfull
    rw [hleft, hright, h.tooDeep_eq halive]

theorem andEdit_alike (hp : w.Alike L p p') (edit : Draft → Edit) :
    w.Alike L (andEdit p edit) (andEdit p' edit) := by
  intro us start s h hv
  rw [andEdit, andEdit, hp us start s h hv]

/-! ## Patterns and the grammar -/

/-- Every pattern is the same run in both sources, if what it refers to is. -/
theorem run_alike {ν : Type} {E : ParseError.Cause → Prop} {R : ν → List TokenKind → Prop}
    {env env' : ν → Matcher} (hR : ∀ n, ∃ v, R n v)
    (hin : ∀ n, Within w.leftCx (R n) (env n)) (hin' : ∀ n, Within w.rightCx (R n) (env' n))
    (henv : ∀ n, w.Alike (R n) (env n) (env' n)) {p : Pattern ν} (h : p.Honest E)
    (hplain : p.Plain) : w.Alike (p.Spells R) (p.run w.leftCx env) (p.run w.rightCx env') := by
  have hwithin {p : Pattern ν} (h : p.Honest E) (hplain : p.Plain) :
      Within w.leftCx (p.Spells R) (p.run w.leftCx env) ∧
        Within w.rightCx (p.Spells R) (p.run w.rightCx env') :=
    ⟨Pattern.run_within hR hin h hplain, Pattern.run_within hR hin' h hplain⟩
  induction p with
  | token kind note => exact token_alike w kind note
  | endOfInput => exact endOfInput_alike w
  | done => exact .same _
  | never => exact h.elim
  | andThen p q ihp ihq =>
      obtain ⟨hleft, hright⟩ := hwithin h.1 hplain.1
      exact andThen_alike (ihp h.1 hplain.1) (ihq h.2 hplain.2) (h.2.spells hR) hleft hright
  | orElse p q ihp ihq =>
      rcases h.2 with hq | rfl
      · exact orElse_alike (ihp h.1 hplain.1) (ihq hq hplain.2)
      · exact orElse_alike (ihp h.1 hplain.1) (.same _)
  | optional p ih => exact optional_alike (ih h hplain)
  | many p ih =>
      obtain ⟨hleft, hright⟩ := hwithin (p := p) h hplain
      exact many_alike (ih h hplain) hleft hright
  | separated item separator ih =>
      obtain ⟨hleft, hright⟩ := hwithin (p := item) h hplain
      exact separated_alike (ih h hplain) hleft hright separator
  | ahead p _ =>
      obtain rfl : p = .endOfInput := hplain
      exact ahead_alike (endOfInput_alike w)
  | child p attach ih => exact child_alike (ih h.1 hplain) (h.1.spells hR) attach
  | andEdit p edit ih => exact andEdit_alike (ih h.1 hplain) edit
  | ref name => exact henv name

theorem valueWithin_alike (w : Siblings) (levels : Nat) :
    w.Alike Language.IsValue (Grammar.valueWithin w.leftCx levels)
      (Grammar.valueWithin w.rightCx levels) := by
  induction levels with
  | zero =>
      intro us start s h hv
      rw [Grammar.valueWithin, Grammar.valueWithin,
        h.tooDeep_eq (alive_of_language (Grammar.exists_isValue .value) hv)]
  | succ levels ih =>
      have hrun := run_alike (R := fun _ : Nonterminal => Language.IsValue)
        Grammar.exists_isValue (fun _ => Grammar.valueWithin_within _ levels)
        (fun _ => Grammar.valueWithin_within _ levels) (fun _ => ih)
        (Grammar.value_honest (E := (·.isFatal = true)) Grammar.ref_honest)
        (Grammar.value_plain Grammar.ref_plain)
      exact hrun.mono fun v hv => Language.isValue_of_spells (fun _ => id) hv

/-- The matcher of a goal is the same run in both sources. -/
theorem goal_alike (w : Siblings) (goal : Goal) :
    w.Alike (Language.Sentence goal) (goal.matcher w.leftCx) (goal.matcher w.rightCx) := by
  have hin (cx : Context) (n : Nonterminal) :
      Within cx Language.IsValue (Grammar.meaning cx n) :=
    Grammar.valueWithin_within cx _
  have henv (n : Nonterminal) : w.Alike Language.IsValue (Grammar.meaning w.leftCx n)
      (Grammar.meaning w.rightCx n) :=
    w.valueWithin_alike _
  cases goal with
  | module =>
      have hrun := run_alike (R := fun _ => Language.IsValue) Grammar.exists_isValue (hin _)
        (hin _) henv (Grammar.module_honest (E := (·.isFatal = true)) Grammar.ref_honest)
        (Grammar.module_plain Grammar.ref_plain)
      exact hrun.mono fun v hv => Language.sentence_of_spells_module (fun _ => id) hv
  | value =>
      have hrun := run_alike (R := fun _ => Language.IsValue) Grammar.exists_isValue (hin _)
        (hin _) henv (Grammar.soleValue_honest (E := (·.isFatal = true)) Grammar.ref_honest)
        (Grammar.soleValue_plain Grammar.ref_plain)
      exact hrun.mono fun v hv => Language.sentence_of_spells_soleValue (fun _ => id) hv

/-- A parse that fails fails in the same way in both sources. -/
theorem outcome_eq (w : Siblings) {goal : Goal} (hS : w.Sentence = Language.Sentence goal)
    {f : Failure} {p : Progress} (h : Parse.outcome goal w.leftCx = .error f p) :
    Parse.outcome goal w.rightCx = .error f p := by
  have hv : ∀ v, Language.Sentence goal v → Viable w.Sentence ([] ++ v) :=
    fun v hmem => ⟨[], by simpa [hS] using hmem⟩
  rcases Nat.eq_zero_or_pos w.limits.maxDepth with hfull | hroom
  · have hL : ∃ v, Language.Sentence goal v := by
      cases goal with
      | module => exact ⟨_, [], [], by simp, rfl⟩
      | value => exact Grammar.exists_isValue .value
    have hleft : Parse.outcome goal w.leftCx = _ := Parse.outcome_of_full hfull
    have hright : Parse.outcome goal w.rightCx = _ := Parse.outcome_of_full hfull
    have halive : w.Alive [] := alive_of_language hL hv
    rw [hright, ← h, hleft, (Abreast.zero w).tooDeep_eq halive]
  · have hleft : Parse.outcome goal w.leftCx = _ := Parse.outcome_of_room hroom
    have hright : Parse.outcome goal w.rightCx = _ := Parse.outcome_of_room hroom
    rw [hleft] at h
    rw [hright, ← w.goal_alike goal [] 0 _ (.zero w) hv]
    split at h
    · exact h
    · cases h

end Siblings

/-! ## Errors -/

variable {s s' : Source} {goal : Goal} {l : Limits} {us : List Lexeme} {o : Nat} {x : Lexeme}

namespace Source

/-- The tokens that the scanner finds up to a token of the path, itself included. -/
theorem tokens_upto (h : s.Path 0 us o) (hx : s.lexeme? o = some x) :
    (s.tokens.filter (·.span.start ≤ x.span.start)).map Token.lexeme = us ++ [x] := by
  have hpath := h.append (.cons hx (.nil _))
  have hbounds := lexeme?_bounds hx
  have hle := s.le_skipBlanks x.span.stop
  rw [← tokens_before hpath]
  refine congrArg _ (List.filter_congr fun t ht => decide_eq_decide.2 ⟨fun _ => by omega, ?_⟩)
  intro hlt
  have hbefore : t ∈ s.tokens.filter (·.span.start < s.skipBlanks x.span.stop) :=
    List.mem_filter.2 ⟨ht, decide_eq_true hlt⟩
  have hmem := List.mem_map_of_mem (f := Token.lexeme) hbefore
  rw [tokens_before hpath] at hmem
  have hspan : t.lexeme.span = t.span := rfl
  rcases List.mem_append.1 hmem with hmem | hmem
  · have := h.start_lt _ hmem
    rw [hspan] at this
    omega
  · rw [List.mem_singleton] at hmem
    rw [← hspan, hmem]

/-- Where another source begins with the tokens up to a token of the path, they are on its
path as well, and the token is in the same place. -/
theorem path_of_same_tokens (h : s.Path 0 us o) (hx : s.lexeme? o = some x)
    (hsame : (s.tokens.filter (·.span.start ≤ x.span.start)).map Token.lexeme <+:
      s'.tokens.map Token.lexeme) :
    (∃ b, s'.Path 0 (us ++ [x]) b) ∧ s'.lexeme? x.span.start = some x := by
  obtain ⟨rest, hrest⟩ := hsame
  rw [tokens_upto h hx] at hrest
  obtain ⟨a, hall, -⟩ := Scanner.path_tokens .initial s'
  rw [show Scanner.initial.tokens s' = s'.tokens from rfl, ← hrest] at hall
  obtain ⟨b, hpath, -⟩ := hall.of_append
  refine ⟨⟨b, hpath⟩, ?_⟩
  obtain ⟨c, hc⟩ := hpath.exists_lexeme? x (by simp)
  rw [(lexeme?_eq_some.1 hc).1, lexeme?_skipBlanks, hc]

end Source

namespace Parse

variable {m : Miss}

/-- The error of a miss at a token. -/
theorem errorAt_eq_of_lexeme? (h : s.lexeme? m.offset = some x) :
    errorAt s m =
      { cause := .unexpectedToken m.expected (some x.kind), span := x.span } := by
  have hkind := Source.kind_ne_unknown h
  have hpeek := (Source.lexeme?_eq_peek hkind).1 ⟨x, h, rfl, rfl⟩
  rw [errorAt, hpeek]
  generalize x.kind = kind at hkind
  cases kind with
  | unknown => exact absurd rfl hkind
  | _ => rfl

/-- No sentence begins with the tokens up to the furthest miss and the one that is
there. A parse would have followed it further. -/
theorem not_viable_of_miss {p : Progress} {far : Miss}
    (h : outcome goal ⟨s, l⟩ = .error (.miss m) p) (hfar : p.furthest = some far)
    (hpath : s.Path 0 us o) (hx : s.lexeme? o = some x)
    (hplace : far.offset = s.skipBlanks o) :
    ¬ Viable (Language.Sentence goal) ((us ++ [x]).map Lexeme.kind) := by
  intro hviable
  obtain ⟨v, hv⟩ := hviable
  obtain ⟨t, hrun, rfl⟩ := run_of_outcome_miss h
  obtain ⟨f, hle, htrack⟩ := Trial.exists_fork ⟨s, l⟩ x.span.stop v
  have htrack := Trial.tracks_append (hpath.append (.cons hx (.nil _))) htrack
  obtain ⟨far', hfar', hcovers⟩ := htrack.covers hv rfl hrun
  obtain rfl : far = far' := Option.some.inj (hfar.symm.trans hfar')
  have := Source.lexeme?_bounds hx
  have hat := (Source.lexeme?_eq_some.1 hx).1
  have : x.span.stop ≤ f.offset := Nat.le_trans (s.le_skipBlanks _) hle
  have : f.offset ≤ far.offset := by omega
  omega

end Parse

/-- An error that finds a token where something else should have come depends on the
tokens up to there and on nothing else: a source that begins with the same tokens fails for
the same cause in the same place, whatever comes behind them, even if that is no token at
all. -/
theorem parse_of_same_tokens {goal : Goal} {s s' : Source} {l : Limits} {e : ParseError}
    {expected : TokenSet} {k : TokenKind} (h : parse goal s l = .error e)
    (hcause : e.cause = .unexpectedToken expected (some k))
    (hsame : (s.tokens.filter (·.span.start ≤ e.span.start)).map Token.lexeme <+:
      s'.tokens.map Token.lexeme) :
    ∃ e', parse goal s' l = .error e' ∧ e'.cause = e.cause ∧ e'.span = e.span := by
  obtain ⟨f, p, hout, rfl⟩ := parse_eq_error.1 h
  cases f with
  | fatal e =>
      have hfatal := Parse.isFatal_of_outcome hout
      rw [show e.cause = _ from hcause] at hfatal
      cases hfatal
  | miss m =>
      obtain ⟨far, hfar, herror⟩ := Parse.errorOf_miss hout
      obtain ⟨us, o, (hpath : s.Path 0 us o), (hplace : far.offset = s.skipBlanks o), -⟩ :=
        Parse.justified_of_miss hout far hfar
      simp only at herror
      rw [herror] at hcause hsame ⊢
      obtain ⟨x, hx⟩ : ∃ x, s.lexeme? o = some x := by
        obtain ⟨-, hfound⟩ := Parse.found_of_errorAt hpath hplace hcause
        generalize (Parse.errorAt s far).span = span at hfound
        cases hfound with
        | token here => exact ⟨_, here⟩
      have hfar_eq := Parse.errorAt_eq_of_lexeme? (s := s) (m := far)
        (by rwa [hplace, Source.lexeme?_skipBlanks])
      rw [hfar_eq] at hsame ⊢
      obtain ⟨hpath', hx'⟩ := Source.path_of_same_tokens hpath hx hsame
      rw [(Source.lexeme?_eq_some.1 hx).1, ← hplace] at hx'
      let w : Siblings := ⟨s, s', l, Language.Sentence goal, us ++ [x],
        ⟨_, hpath.append (.cons hx (.nil _))⟩, hpath',
        Parse.not_viable_of_miss hout hfar hpath hx hplace⟩
      have hout' : Parse.outcome goal ⟨s', l⟩ = .error (.miss m) p := w.outcome_eq rfl hout
      obtain ⟨far', hfar', herror'⟩ := Parse.errorOf_miss hout'
      obtain rfl := Option.some.inj (hfar.symm.trans hfar')
      refine ⟨_, parse_eq_error.2 ⟨_, _, hout', rfl⟩, ?_⟩
      simp only at herror'
      rw [herror', Parse.errorAt_eq_of_lexeme? hx']
      exact ⟨rfl, rfl⟩

open TokenKind in
/-- A colon in a list, and behind it a string that is not closed. -/
theorem parse_of_same_tokens_unclosed :
    ∃ e e', parse .value ⟨"[1:2]"⟩ = .error e ∧
      e.cause = .unexpectedToken (.ofList [symbol .listSeparator, symbol .listEnd])
        (some (symbol .define)) ∧
      (∃ le, tokenize ⟨"[1:\"x"⟩ = .error le) ∧ parse .value ⟨"[1:\"x"⟩ = .error e' ∧
        e'.cause = e.cause ∧ e'.span = e.span := by
  have h : parse .value ⟨"[1:2]"⟩ = .error
      { cause := .unexpectedToken (.ofList [symbol .listSeparator, symbol .listEnd])
          (some (symbol .define)),
        span := ⟨2, 3⟩,
        location := some ⟨1, 3⟩ } := by
    cbv
  have htokens : (Source.tokens ⟨"[1:2]"⟩).filter (·.span.start ≤ 2) =
      Source.tokens ⟨"[1:\"x"⟩ := by
    cbv
  have hsame : ((Source.tokens ⟨"[1:2]"⟩).filter (·.span.start ≤ 2)).map Token.lexeme <+:
      (Source.tokens ⟨"[1:\"x"⟩).map Token.lexeme := by
    rw [htokens]
  obtain ⟨e', he', hcause, hspan⟩ := parse_of_same_tokens h rfl hsame
  exact ⟨_, e', h, rfl, ⟨_, by cbv⟩, he', hcause, hspan⟩

end WeLang
