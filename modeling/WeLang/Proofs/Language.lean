import WeLang.Proofs.Contract

/-!
# The language

What is a value and what is a module is a matter of token kinds alone, and it can
be said without mentioning offsets, drafts or the order in which things are
tried. `Language.IsValue` says it production by production, just as the grammar
is written down, and `Language.Sentence` says it of whole sources.

A pattern has a language too, if one reads it as what it looks like: a choice as
either of the two, a repetition as any number of them. That is `Pattern.Spells`.
A matcher does not search for a way to read a source as its pattern says, it
takes the first one that comes up; but whatever it does find is spelled by the
pattern. And what the patterns of the grammar spell is the language
(`Language.isValue_of_spells`, `Language.sentence_of_spells`).
-/

namespace WeLang

namespace Language

open TokenKind WeLang.Symbol Keyword

/-! ## Sentences -/

/-- So many more names of a chain. -/
def dotted (n : Nat) : List TokenKind :=
  (List.replicate n [symbol identifierSeparator, identifier]).flatten

/-- A chain of names that has so many more after the first. -/
def chain (n : Nat) : List TokenKind :=
  identifier :: dotted n

/-- The two edges of a function. -/
def edges : List TokenKind :=
  [symbol typeParameterStart, identifier, identifier, symbol typeParameterEnd]

/-- A name and the value that is defined under it. -/
def entry (w : List TokenKind) : List TokenKind :=
  identifier :: symbol define :: w

/-- Something that may be left out. -/
def maybe (there : Bool) (w : List TokenKind) : List TokenKind :=
  if there then w else []

/-- Anything of a language behind a separator, any number of times, and perhaps a
last separator. -/
def Further (L : List TokenKind → Prop) (separator : TokenKind) (w : List TokenKind) : Prop :=
  ∃ (rest : List (List TokenKind)) (trailing : Bool), (∀ u ∈ rest, L u) ∧
    w = rest.flatMap (separator :: ·) ++ maybe trailing [separator]

/-- Anything of a language, any number of times. -/
def Repeated (L : List TokenKind → Prop) (w : List TokenKind) : Prop :=
  ∃ us : List (List TokenKind), (∀ u ∈ us, L u) ∧ w = us.flatten

/-- Anything of a language with separators between, and perhaps a last separator; or
nothing. -/
def Separated (L : List TokenKind → Prop) (separator : TokenKind) (w : List TokenKind) : Prop :=
  w = [] ∨ ∃ (first : List TokenKind) (rest : List (List TokenKind)) (trailing : Bool),
    L first ∧ (∀ u ∈ rest, L u) ∧
    w = first ++ rest.flatMap (separator :: ·) ++ maybe trailing [separator]

theorem repeated_nil (L : List TokenKind → Prop) : Repeated L [] :=
  ⟨[], by simp, rfl⟩

theorem Repeated.cons {L : List TokenKind → Prop} {u w : List TokenKind} (hu : L u)
    (hw : Repeated L w) : Repeated L (u ++ w) := by
  obtain ⟨us, hus, rfl⟩ := hw
  exact ⟨u :: us, List.forall_mem_cons.2 ⟨hu, hus⟩, rfl⟩

theorem repeated_singleton {L : List TokenKind → Prop} {w : List TokenKind} (h : L w) :
    Repeated L w := by
  have := (repeated_nil L).cons h
  rwa [List.append_nil] at this

theorem further_nil (L : List TokenKind → Prop) (separator : TokenKind) :
    Further L separator [] :=
  ⟨[], false, by simp, rfl⟩

theorem further_separator (L : List TokenKind → Prop) (separator : TokenKind) :
    Further L separator [separator] :=
  ⟨[], true, by simp, rfl⟩

theorem Further.cons {L : List TokenKind → Prop} {separator : TokenKind} {u w : List TokenKind}
    (hu : L u) (hw : Further L separator w) : Further L separator (separator :: u ++ w) := by
  obtain ⟨rest, trailing, hrest, rfl⟩ := hw
  exact ⟨u :: rest, trailing, List.forall_mem_cons.2 ⟨hu, hrest⟩, by simp⟩

theorem further_singleton {L : List TokenKind → Prop} {w : List TokenKind} (h : L w)
    (separator : TokenKind) : Further L separator (separator :: w) := by
  have := (further_nil L separator).cons h
  rwa [List.append_nil] at this

theorem Further.separated {L : List TokenKind → Prop} {separator : TokenKind}
    {u w : List TokenKind} (hw : Further L separator w) (hu : L u) :
    Separated L separator (u ++ w) := by
  obtain ⟨rest, trailing, hrest, rfl⟩ := hw
  exact .inr ⟨u, rest, trailing, hu, hrest, (List.append_assoc ..).symm⟩

theorem separated_singleton {L : List TokenKind → Prop} {w : List TokenKind} (h : L w)
    (separator : TokenKind) : Separated L separator w := by
  have := (further_nil L separator).separated h
  rwa [List.append_nil] at this

/-- The kinds of the tokens of a value. -/
inductive IsValue : List TokenKind → Prop
  | discard : IsValue [symbol discard]
  | integer : IsValue [integer]
  | string : IsValue [string]
  | chain (n : Nat) : IsValue (chain n)
  | emptyList : IsValue [symbol listStart, symbol listEnd]
  | list {first : List TokenKind} {rest : List (List TokenKind)} (trailing : Bool)
      (head : IsValue first) (tail : ∀ w ∈ rest, IsValue w) :
      IsValue (symbol listStart :: first ++ rest.flatMap (symbol listSeparator :: ·) ++
        maybe trailing [symbol listSeparator] ++ [symbol listEnd])
  | map {values : List (List TokenKind)} (all : ∀ w ∈ values, IsValue w) :
      IsValue (symbol mapStart :: values.flatMap entry ++ [symbol mapEnd])
  | function {clause : List (List TokenKind)} {more : List (List (List TokenKind))}
      (word signed : Bool) (head : ∀ w ∈ clause, IsValue w)
      (tail : ∀ c ∈ more, ∀ w ∈ c, IsValue w) :
      IsValue (maybe word [keyword fnWord] ++ [symbol functionStart] ++ maybe signed edges ++
        clause.flatten ++ more.flatMap (symbol clauseSeparator :: ·.flatten) ++
        [symbol functionEnd])
  | typeParameter {input output target : List TokenKind} (left : IsValue input)
      (right : IsValue output) (inner : IsValue target) :
      IsValue (symbol typeParameterStart :: input ++ symbol listSeparator :: output ++
        symbol typeParameterEnd :: target)
  | typeAlias {target : List TokenKind} (word : Bool) (inner : IsValue target) :
      IsValue ((if word then keyword aliasWord else symbol typeAlias) :: target)
  | typeIdentity {target : List TokenKind} (word : Bool) (inner : IsValue target) :
      IsValue ((if word then keyword identityWord else symbol typeIdentity) :: target)

/-- The kinds of the tokens of a source that is what a goal says. -/
def Sentence : Goal → List TokenKind → Prop
  | .value, w => IsValue w
  | .module, w => ∃ (uses : List Nat) (values : List (List TokenKind)),
      (∀ v ∈ values, IsValue v) ∧
        w = uses.flatMap (keyword useWord :: chain ·) ++ values.flatMap entry

end Language

/-! ## What a pattern spells -/

namespace Pattern

variable {ν : Type} {R : ν → List TokenKind → Prop}

/-- The kinds of tokens that a pattern looks like it matches, if names look like
what `R` says. -/
def Spells (R : ν → List TokenKind → Prop) : Pattern ν → List TokenKind → Prop
  | .token kind _, w => w = [kind]
  | .endOfInput, w | .done, w | .ahead _, w => w = []
  | .never, _ => False
  | .andThen p q, w => ∃ u v, w = u ++ v ∧ p.Spells R u ∧ q.Spells R v
  | .orElse p q, w => p.Spells R w ∨ q.Spells R w
  | .optional p, w => w = [] ∨ p.Spells R w
  | .many p, w => ∃ us : List (List TokenKind), (∀ u ∈ us, p.Spells R u) ∧ w = us.flatten
  | .separated item separator, w => w = [] ∨
      ∃ (first : List TokenKind) (rest : List (List TokenKind)) (trailing : Bool),
        item.Spells R first ∧ (∀ u ∈ rest, item.Spells R u) ∧
        w = first ++ rest.flatMap (separator :: ·) ++ Language.maybe trailing [separator]
  | .child p _, w | .andEdit p _, w => p.Spells R w
  | .ref name, w => R name w

@[simp] theorem spells_token {kind : TokenKind} {note : Lexeme → Edit} {w : List TokenKind} :
    (token kind note).Spells R w ↔ w = [kind] := Iff.rfl

@[simp] theorem spells_expect {kind : TokenKind} {w : List TokenKind} :
    (expect kind).Spells R w ↔ w = [kind] := Iff.rfl

@[simp] theorem spells_mark {m : Symbol} {w : List TokenKind} :
    (mark m).Spells R w ↔ w = [.symbol m] := Iff.rfl

@[simp] theorem spells_word {k : Keyword} {w : List TokenKind} :
    (word k).Spells R w ↔ w = [.keyword k] := Iff.rfl

@[simp] theorem spells_andEdit {p : Pattern ν} {edit : Draft → Edit} {w : List TokenKind} :
    (andEdit p edit).Spells R w ↔ p.Spells R w := Iff.rfl

theorem spells_firstOf {ps : List (Pattern ν)} {w : List TokenKind} :
    (firstOf ps).Spells R w ↔ ∃ p ∈ ps, p.Spells R w := by
  induction ps with
  | nil => simp [firstOf, Spells]
  | cons p ps ih =>
      simp only [firstOf, List.foldr_cons, Spells] at ih ⊢
      simp [ih]

/-- A pattern that can be matched at all looks like something. -/
theorem Honest.spells {E : ParseError.Cause → Prop} (hR : ∀ n, ∃ w, R n w) {p : Pattern ν}
    (h : p.Honest E) : ∃ w, p.Spells R w := by
  induction p with
  | token kind note => exact ⟨_, rfl⟩
  | endOfInput => exact ⟨_, rfl⟩
  | done => exact ⟨_, rfl⟩
  | never => exact h.elim
  | andThen p q ihp ihq =>
      obtain ⟨u, hu⟩ := ihp h.1
      obtain ⟨v, hv⟩ := ihq h.2
      exact ⟨u ++ v, u, v, rfl, hu, hv⟩
  | orElse p q ihp _ =>
      obtain ⟨w, hw⟩ := ihp h.1
      exact ⟨w, .inl hw⟩
  | optional p _ => exact ⟨[], .inl rfl⟩
  | many p _ => exact ⟨[], [], by simp, rfl⟩
  | separated item separator _ => exact ⟨[], .inl rfl⟩
  | ahead p _ => exact ⟨_, rfl⟩
  | child p attach ih => exact ih h.1
  | andEdit p edit ih => exact ih h.1
  | ref name => exact hR name

end Pattern

/-! ## What the grammar spells -/

namespace Grammar

open TokenKind Pattern WeLang.Language

variable {ν : Type} {R : ν → List TokenKind → Prop} {inner : Pattern ν} {w : List TokenKind}

theorem spells_identifierChain (h : (identifierChain : Pattern ν).Spells R w) :
    ∃ n, w = chain n := by
  obtain ⟨_, _, rfl, rfl, _, _, rfl, ⟨us, hus, rfl⟩, rfl⟩ := h
  refine ⟨us.length, ?_⟩
  have : us = List.replicate us.length [symbol .identifierSeparator, identifier] := by
    refine List.eq_replicate_iff.2 ⟨rfl, fun u hu => ?_⟩
    obtain ⟨_, _, rfl, rfl, _, _, rfl, rfl, rfl⟩ := hus u hu
    rfl
  rw [chain, dotted, ← this]
  simp

theorem spells_entry (h : (Grammar.entry inner).Spells R w) :
    ∃ v, inner.Spells R v ∧ w = Language.entry v := by
  obtain ⟨_, _, rfl, rfl, _, _, rfl, rfl, v, _, rfl, hv, rfl⟩ := h
  exact ⟨v, hv, by simp [Language.entry]⟩

/-- What repeats a pattern is spelled by a list of what it spells. -/
theorem spells_many_map {α : Type} {p : Pattern ν} {P : α → Prop} {f : α → List TokenKind}
    (hp : ∀ u, p.Spells R u → ∃ v, P v ∧ u = f v) (h : (Pattern.many p).Spells R w) :
    ∃ vs : List α, (∀ v ∈ vs, P v) ∧ w = vs.flatMap f := by
  obtain ⟨us, hus, rfl⟩ := h
  induction us with
  | nil => exact ⟨[], by simp, rfl⟩
  | cons u us ih =>
      obtain ⟨v, hv, rfl⟩ := hp u (hus u (List.mem_cons_self ..))
      obtain ⟨vs, hvs, hflat⟩ := ih fun u hu => hus u (List.mem_cons_of_mem _ hu)
      refine ⟨v :: vs, ?_, by simp [hflat]⟩
      simpa [hv] using hvs

theorem spells_clause (h : (clause inner).Spells R w) :
    ∃ vs : List (List TokenKind), (∀ v ∈ vs, inner.Spells R v) ∧ w = vs.flatten :=
  h

theorem spells_furtherClause
    (h : (Pattern.sequence [.mark .clauseSeparator, clause inner]).Spells R w) :
    ∃ vs : List (List TokenKind), (∀ v ∈ vs, inner.Spells R v) ∧
      w = symbol .clauseSeparator :: vs.flatten := by
  obtain ⟨_, _, rfl, rfl, _, _, rfl, hc, rfl⟩ := h
  obtain ⟨vs, hvs, rfl⟩ := spells_clause hc
  exact ⟨vs, hvs, by simp⟩

theorem spells_wrapped {m : Symbol} {k : Keyword} (h : (wrapped inner m k).Spells R w) :
    ∃ (spelled : Bool) (v : List TokenKind), inner.Spells R v ∧
      w = (if spelled then keyword k else symbol m) :: v := by
  obtain ⟨_, _, rfl, hmark, v, _, rfl, hv, rfl⟩ := h
  rcases hmark with rfl | rfl | hnever
  · exact ⟨false, v, hv, by simp⟩
  · exact ⟨true, v, hv, by simp⟩
  · exact hnever.elim

theorem spells_signature (h : (signature : Pattern ν).Spells R w) : w = edges := by
  obtain ⟨_, _, rfl, rfl, _, _, rfl, rfl, _, _, rfl, rfl, _, _, rfl, rfl, rfl⟩ := h
  rfl

theorem spells_list (hR : ∀ w, inner.Spells R w → IsValue w) (h : (list inner).Spells R w) :
    IsValue w := by
  obtain ⟨_, _, rfl, rfl, _, _, rfl, hitems, _, _, rfl, rfl, rfl⟩ := h
  rcases hitems with rfl | ⟨first, rest, trailing, hfirst, hrest, rfl⟩
  · exact .emptyList
  · have := IsValue.list trailing (hR first hfirst) fun w hw => hR w (hrest w hw)
    simpa using this

theorem spells_map (hR : ∀ w, inner.Spells R w → IsValue w) (h : (map inner).Spells R w) :
    IsValue w := by
  obtain ⟨_, _, rfl, rfl, _, _, rfl, hentries, _, _, rfl, rfl, rfl⟩ := h
  obtain ⟨values, hvalues, rfl⟩ := spells_many_map (fun _ => spells_entry) hentries
  have := IsValue.map fun w hw => hR w (hvalues w hw)
  simpa using this

theorem spells_function (hR : ∀ w, inner.Spells R w → IsValue w)
    (h : (function inner).Spells R w) : IsValue w := by
  obtain ⟨fn, _, rfl, hword, _, _, rfl, rfl, signed, _, rfl, hsigned, _, _, rfl, hclause, _, _,
    rfl, hmore, _, _, rfl, rfl, rfl⟩ := h
  obtain ⟨clause, hhead, rfl⟩ := spells_clause hclause
  obtain ⟨more, htail, rfl⟩ := spells_many_map (fun _ => spells_furtherClause) hmore
  obtain ⟨word, rfl⟩ : ∃ word, fn = maybe word [keyword .fnWord] := by
    rcases hword with rfl | rfl
    · exact ⟨false, rfl⟩
    · exact ⟨true, rfl⟩
  obtain ⟨declared, rfl⟩ : ∃ declared, signed = maybe declared edges := by
    rcases hsigned with rfl | hsigned
    · exact ⟨false, rfl⟩
    · exact ⟨true, spells_signature hsigned⟩
  have := IsValue.function word declared (fun w hw => hR w (hhead w hw))
    fun c hc w hw => hR w (htail c hc w hw)
  simpa using this

theorem spells_typeParameter (hR : ∀ w, inner.Spells R w → IsValue w)
    (h : (typeParameter inner).Spells R w) : IsValue w := by
  obtain ⟨_, _, rfl, rfl, input, _, rfl, hinput, _, _, rfl, rfl, output, _, rfl, houtput, _, _,
    rfl, rfl, target, _, rfl, htarget, rfl⟩ := h
  have := IsValue.typeParameter (hR _ hinput) (hR _ houtput) (hR _ htarget)
  simpa using this

theorem spells_useStatement (h : (useStatement : Pattern ν).Spells R w) :
    ∃ n, w = keyword .useWord :: chain n := by
  obtain ⟨_, _, rfl, rfl, _, _, rfl, hchain, rfl⟩ := h
  obtain ⟨n, rfl⟩ := spells_identifierChain hchain
  exact ⟨n, by simp⟩

end Grammar

namespace Language

open TokenKind Pattern

variable {ν : Type} {R : ν → List TokenKind → Prop} {inner : Pattern ν} {w : List TokenKind}

/-- What the pattern of a value spells is a value, if what stands for the values
inside it spells values. -/
theorem isValue_of_spells (hR : ∀ w, inner.Spells R w → IsValue w)
    (h : (Grammar.value inner).Spells R w) : IsValue w := by
  obtain ⟨p, hp, h⟩ := spells_firstOf.1 h
  simp only [List.mem_cons, List.not_mem_nil, or_false] at hp
  rcases hp with rfl | rfl | rfl | rfl | rfl | rfl | rfl | rfl | rfl | rfl
  · exact Grammar.spells_list hR h
  · exact Grammar.spells_map hR h
  · exact Grammar.spells_function hR h
  · exact Grammar.spells_typeParameter hR h
  · obtain ⟨word, v, hv, rfl⟩ := Grammar.spells_wrapped h
    exact .typeAlias word (hR v hv)
  · obtain ⟨word, v, hv, rfl⟩ := Grammar.spells_wrapped h
    exact .typeIdentity word (hR v hv)
  · exact h ▸ .discard
  · exact h ▸ .integer
  · obtain ⟨n, rfl⟩ := Grammar.spells_identifierChain h
    exact .chain n
  · exact h ▸ .string

theorem sentence_of_spells_module (hR : ∀ w, inner.Spells R w → IsValue w)
    (h : (Grammar.module inner).Spells R w) : Sentence .module w := by
  obtain ⟨_, _, rfl, huses, _, _, rfl, hentries, _, _, rfl, rfl, rfl⟩ := h
  obtain ⟨values, hvalues, rfl⟩ :=
    Grammar.spells_many_map (fun _ => Grammar.spells_entry) hentries
  obtain ⟨uses, -, rfl⟩ := Grammar.spells_many_map (P := fun _ : Nat => True)
    (fun _ h => (Grammar.spells_useStatement h).imp fun _ hw => ⟨trivial, hw⟩) huses
  exact ⟨uses, values, fun v hv => hR v (hvalues v hv), by simp⟩

theorem sentence_of_spells_soleValue (hR : ∀ w, inner.Spells R w → IsValue w)
    (h : (Grammar.soleValue inner).Spells R w) : Sentence .value w := by
  obtain ⟨v, _, rfl, hv, _, _, rfl, rfl, rfl⟩ := h
  have := isValue_of_spells hR hv
  simpa [Sentence] using this

end Language

end WeLang
