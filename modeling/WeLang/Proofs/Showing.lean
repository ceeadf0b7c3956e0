import WeLang.Proofs.Collections
import WeLang.Proofs.Storing

/-!
# What types look like

A type is shown with its requirements in braces, and so on for whatever it requires. From
what is shown the type can be read back, provided that none of its texts has a blank, a
comma or a colon in it (`Ty.eq_of_render`): then a claim ends where one of them stands, a
name ends at its colon, and behind a requirement comes a comma, or a blank with the closing
brace, but never a blank with an opening one. So of two types that are shown alike, each
with more behind it, the parts are alike one after the other (`Ty.Separable`). Whether there
are braces in the texts does not matter.

The other way round, of how a type was made nothing is shown. What can be asked of a type is
what is claimed at the end of a path of requirements (`Ty.claimAt?`). Types that are made by
adding and replacing requirements in whatever order are the same if they answer alike, since
the order of their rows is that of the names (`Ty.eq_of_claims`).
-/

namespace WeLang

/-! ## Texts -/

/-- A text in which nothing stands that is put between the texts of a type. -/
def Plain (text : String) : Prop :=
  ∀ c ∈ text.toList, c ≠ ' ' ∧ c ≠ ',' ∧ c ≠ ':'

/-- A text that is not empty, of letters, digits, underscores and points. -/
def Wordy (text : String) : Prop :=
  text ≠ "" ∧ ∀ c ∈ text.toList, c.isAlphanum = true ∨ c = '_' ∨ c = '.'

instance (text : String) : Decidable (Plain text) :=
  inferInstanceAs (Decidable (∀ c ∈ text.toList, c ≠ ' ' ∧ c ≠ ',' ∧ c ≠ ':'))

instance (text : String) : Decidable (Wordy text) :=
  inferInstanceAs (Decidable (text ≠ "" ∧
    ∀ c ∈ text.toList, c.isAlphanum = true ∨ c = '_' ∨ c = '.'))

theorem Wordy.plain {text : String} (h : Wordy text) : Plain text := by
  intro c hc
  rcases h.2 c hc with hc | rfl | rfl
  · refine ⟨?_, ?_, ?_⟩ <;> rintro rfl <;> exact absurd hc (by decide)
  · decide
  · decide

/-- What comes behind a text does not go on with it. -/
def Breaks (rest : List Char) : Prop :=
  ∀ c ∈ rest.head?, c = ' ' ∨ c = ',' ∨ c = ':'

/-- Where two texts end can be seen from what comes behind. -/
theorem Plain.append_inj {text text' : String} {rest rest' : List Char} (h : Plain text)
    (h' : Plain text') (hrest : Breaks rest) (hrest' : Breaks rest')
    (heq : text.toList ++ rest = text'.toList ++ rest') : text = text' ∧ rest = rest' := by
  suffices hsplit : text.toList = text'.toList ∧ rest = rest' from
    hsplit.imp_left String.toList_injective
  unfold Plain at h h'
  generalize text.toList = cs at h heq ⊢
  generalize text'.toList = cs' at h' heq ⊢
  induction cs generalizing cs' with
  | nil =>
      cases cs' with
      | nil => exact ⟨rfl, heq⟩
      | cons c' cs' =>
          rw [List.nil_append] at heq
          obtain ⟨hblank, hcomma, hcolon⟩ := h' c' List.mem_cons_self
          have := hrest c' (by rw [heq]; rfl)
          grind
  | cons c cs ih =>
      cases cs' with
      | nil =>
          rw [List.nil_append] at heq
          obtain ⟨hblank, hcomma, hcolon⟩ := h c List.mem_cons_self
          have := hrest' c (by rw [← heq]; rfl)
          grind
      | cons c' cs' =>
          rw [List.cons_append, List.cons_append, List.cons.injEq] at heq
          obtain ⟨rfl, heq⟩ := heq
          rw [List.forall_mem_cons] at h h'
          obtain ⟨rfl, rfl⟩ := ih h.2 cs' h'.2 heq
          exact ⟨rfl, rfl⟩

namespace Ty

/-! ## Types, level by level -/

/-- What holds of a type whenever it holds of all that it requires holds of all types. -/
theorem inductionOn {motive : Ty → Prop}
    (step : ∀ t : Ty, (∀ row ∈ t.requirements, motive row.2) → motive t) (t : Ty) : motive t :=
  step t fun row h =>
    have : sizeOf row.2 < sizeOf t := by
      obtain ⟨claim, rows⟩ := t
      have := List.sizeOf_lt_of_mem h
      cases row
      simp only [Prod.mk.sizeOf_spec, mk.sizeOf_spec] at this ⊢
      omega
    inductionOn step row.2
termination_by sizeOf t

/-- The claims and the names of requirements of a type, at every level, are of a certain
sort. -/
inductive Texts (p : String → Prop) : Ty → Prop
  | intro {t : Ty} (claim : p t.claim) (names : ∀ row ∈ t.requirements, p row.1)
      (below : ∀ row ∈ t.requirements, row.2.Texts p) : Texts p t

theorem Texts.mono {p q : String → Prop} (hpq : ∀ text, p text → q text) {t : Ty}
    (h : t.Texts p) : t.Texts q := by
  induction h with
  | intro claim names _ ih =>
      exact .intro (hpq _ claim) (fun row hrow => hpq _ (names row hrow)) ih

theorem ordered_iff {t : Ty} :
    t.Ordered ↔ Table.Ordered t.requirements ∧ ∀ row ∈ t.requirements, row.2.Ordered := by
  have hrows (rows : List (String × Ty)) : RowsOrdered rows ↔ ∀ row ∈ rows, row.2.Ordered := by
    induction rows with
    | nil => simp [RowsOrdered]
    | cons row rows ih => rw [RowsOrdered, ih, List.forall_mem_cons]
  obtain ⟨claim, rows⟩ := t
  rw [Ordered, hrows]

/-! ## Reading a type back -/

/-- What may come behind a requirement: the next one, or the closing brace. -/
def Closes (rest : List Char) : Prop :=
  rest = [] ∨ rest.head? = some ',' ∨ [' ', '\x7d'] <+: rest

theorem Closes.breaks {rest : List Char} (h : Closes rest) : Breaks rest := by
  intro c hc
  rcases h with rfl | h | ⟨rest, rfl⟩
  · cases hc
  · rw [h] at hc
    cases hc
    exact .inr (.inl rfl)
  · cases hc
    exact .inl rfl

/-- A type whose end can be seen from what comes behind it. -/
def Separable (t : Ty) : Prop :=
  ∀ ⦃u : Ty⦄ ⦃rest rest' : List Char⦄, u.Texts Plain → Closes rest → Closes rest' →
    t.render.toList ++ rest = u.render.toList ++ rest' → t = u ∧ rest = rest'

/-- What is behind the claim of a type. -/
def braced : List (String × Ty) → List Char
  | [] => []
  | (name, t) :: rows =>
      ' ' :: '\x7b' :: ' ' :: (name.toList ++ ':' :: ' ' :: (t.render.toList ++
        ((renderMore rows).toList ++ [' ', '\x7d'])))

theorem toList_render (t : Ty) : t.render.toList = t.claim.toList ++ braced t.requirements := by
  obtain ⟨claim, _ | ⟨⟨name, t⟩, rows⟩⟩ := t
  · simp [render, braced]
  · simp [render, braced]

theorem toList_renderMore_cons (name : String) (t : Ty) (rows : List (String × Ty)) :
    (renderMore ((name, t) :: rows)).toList =
      ',' :: ' ' :: (name.toList ++ ':' :: ' ' :: (t.render.toList ++
        (renderMore rows).toList)) := by
  simp [renderMore]

theorem closes_renderMore (rows : List (String × Ty)) (rest : List Char) :
    Closes ((renderMore rows).toList ++ ' ' :: '\x7d' :: rest) := by
  cases rows with
  | nil => exact .inr (.inr ⟨rest, by simp [renderMore]⟩)
  | cons row rows =>
      obtain ⟨name, t⟩ := row
      rw [toList_renderMore_cons]
      exact .inr (.inl rfl)

variable {rows rows' : List (String × Ty)} {rest rest' : List Char}

/-- A requirement ends where the next one begins or the braces are closed. -/
theorem Separable.row {name name' : String} {t u : Ty} (ht : t.Separable) (hu : u.Texts Plain)
    (hname : Plain name) (hname' : Plain name')
    (heq : name.toList ++ ':' :: ' ' :: (t.render.toList ++
        ((renderMore rows).toList ++ ' ' :: '\x7d' :: rest)) =
      name'.toList ++ ':' :: ' ' :: (u.render.toList ++
        ((renderMore rows').toList ++ ' ' :: '\x7d' :: rest'))) :
    (name, t) = (name', u) ∧ (renderMore rows).toList ++ ' ' :: '\x7d' :: rest =
      (renderMore rows').toList ++ ' ' :: '\x7d' :: rest' := by
  have hcolon (rest : List Char) : Breaks (':' :: rest) := by
    rintro c ⟨⟩
    exact .inr (.inr rfl)
  obtain ⟨rfl, hbehind⟩ := hname.append_inj hname' (hcolon _) (hcolon _) heq
  rw [List.cons.injEq, List.cons.injEq] at hbehind
  obtain ⟨rfl, hmore⟩ := ht hu (closes_renderMore ..) (closes_renderMore ..) hbehind.2.2
  exact ⟨rfl, hmore⟩

/-- Further requirements, one after the other, up to the closing brace. -/
theorem renderMore_append_inj (h : ∀ row ∈ rows, Plain row.1 ∧ row.2.Separable)
    (h' : ∀ row ∈ rows', Plain row.1 ∧ row.2.Texts Plain)
    (heq : (renderMore rows).toList ++ ' ' :: '\x7d' :: rest =
      (renderMore rows').toList ++ ' ' :: '\x7d' :: rest') : rows = rows' ∧ rest = rest' := by
  induction rows generalizing rows' with
  | nil =>
      cases rows' with
      | nil => simpa [renderMore] using heq
      | cons row' rows' =>
          rw [toList_renderMore_cons] at heq
          simp [renderMore] at heq
  | cons row rows ih =>
      cases rows' with
      | nil =>
          rw [toList_renderMore_cons] at heq
          simp [renderMore] at heq
      | cons row' rows' =>
          rw [List.forall_mem_cons] at h h'
          rw [toList_renderMore_cons, toList_renderMore_cons] at heq
          simp only [List.cons_append, List.append_assoc, List.cons.injEq, true_and] at heq
          obtain ⟨hrow, heq⟩ := h.1.2.row h'.1.2 h.1.1 h'.1.1 heq
          obtain ⟨rfl, rfl⟩ := ih h.2 h'.2 heq
          exact ⟨congrArg (· :: rows) hrow, rfl⟩

theorem Texts.separable {t : Ty} (ht : t.Texts Plain) : t.Separable := by
  induction ht with
  | @intro t claim names _ ih =>
      intro u rest rest' hu hrest hrest' heq
      obtain ⟨claim', names', below'⟩ := hu
      rw [toList_render, toList_render, List.append_assoc, List.append_assoc] at heq
      have hbreaks {rows : List (String × Ty)} {rest : List Char} (hrest : Closes rest) :
          Breaks (braced rows ++ rest) := by
        cases rows with
        | nil => exact hrest.breaks
        | cons row rows =>
            rintro c ⟨⟩
            exact .inl rfl
      obtain ⟨hclaim, heq⟩ := claim.append_inj claim' (hbreaks hrest) (hbreaks hrest') heq
      obtain ⟨c, rows⟩ := t
      obtain ⟨c', rows'⟩ := u
      obtain rfl : c = c' := hclaim
      -- an opening brace is not what comes behind a type
      have hopen {rest : List Char} (hrest : Closes rest) (cs : List Char) :
          rest ≠ ' ' :: '\x7b' :: cs := by
        rintro rfl
        rcases hrest with hrest | hrest | ⟨_, hrest⟩
        · cases hrest
        · cases hrest
        · cases hrest
      cases rows with
      | nil =>
          cases rows' with
          | nil => exact ⟨rfl, heq⟩
          | cons row' rows' => exact absurd heq (hopen hrest _)
      | cons row rows =>
          cases rows' with
          | nil => exact absurd heq.symm (hopen hrest' _)
          | cons row' rows' =>
              simp only [braced, List.cons_append, List.append_assoc, List.cons.injEq,
                true_and, List.nil_append] at heq
              rw [List.forall_mem_cons] at names ih names' below'
              obtain ⟨hrow, heq⟩ := Separable.row ih.1 below'.1 names.1 names'.1 heq
              obtain ⟨rfl, rfl⟩ := renderMore_append_inj
                (fun row hrow => ⟨names.2 row hrow, ih.2 row hrow⟩)
                (fun row hrow => ⟨names'.2 row hrow, below'.2 row hrow⟩) heq
              exact ⟨by rw [show row = row' from hrow], rfl⟩

/-- Types that are shown alike are the same. -/
theorem eq_of_render {t u : Ty} (ht : t.Texts Plain) (hu : u.Texts Plain)
    (h : t.render = u.render) : t = u :=
  (ht.separable hu (.inl rfl) (.inl rfl) (congrArg (String.toList · ++ []) h)).1

/-! ## Types that were made -/

/-- A type to which requirements were added, or which had some replaced, in some order, all of
them made in the same way. -/
inductive Composed : Ty → Prop
  | leaf (claim : String) : (Ty.leaf claim).Composed
  | require {t u : Ty} (ht : t.Composed) (name : String) (hu : u.Composed) :
      (t.require name u).Composed

/-- What is made of requirements has them in tables, and whatever has them in tables can be
made in this way. -/
theorem composed_iff {t : Ty} : t.Composed ↔ t.Ordered := by
  constructor
  · intro h
    induction h with
    | leaf claim => exact ⟨.nil, trivial⟩
    | @require t u _ name _ iht ihu =>
        rw [ordered_iff] at iht
        refine ordered_iff.2 ⟨iht.1.insert name u, fun row hrow => ?_⟩
        rcases Table.mem_insert hrow with rfl | hrow
        · exact ihu
        · exact iht.2 row hrow
  · intro h
    induction t using inductionOn with
    | step t ih =>
        obtain ⟨hrows, hbelow⟩ := ordered_iff.1 h
        obtain ⟨claim, rows⟩ := t
        have hmade : (Ty.mk claim (Table.ofRows rows)).Composed :=
          Table.ofRows_induction (motive := fun table => (Ty.mk claim table).Composed)
            (.leaf claim) fun row hrow table htable =>
              .require htable row.1 (ih row hrow (hbelow row hrow))
        rwa [hrows.ofRows_of_perm (.refl rows)] at hmade

/-- What is claimed at the end of a path of requirements. -/
def claimAt? : Ty → List String → Option String
  | t, [] => some t.claim
  | t, name :: path => (t.requirement? name).bind fun u => u.claimAt? path

/-- Types that claim the same at the end of every path are the same. -/
theorem eq_of_claims {t u : Ty} (ht : t.Ordered) (hu : u.Ordered)
    (h : ∀ path, t.claimAt? path = u.claimAt? path) : t = u := by
  induction t using inductionOn generalizing u with
  | step t ih =>
      obtain ⟨ht, htbelow⟩ := ordered_iff.1 ht
      obtain ⟨hu, hubelow⟩ := ordered_iff.1 hu
      have hmem {t x : Ty} {name : String} (ht : Table.Ordered t.requirements)
          (hx : t.requirement? name = some x) : (name, x) ∈ t.requirements :=
        (Table.lookup_eq_some_iff (ht.imp ne_of_lt)).1 hx
      have hclaim : t.claim = u.claim := Option.some.inj (h [])
      have hrows : t.requirements = u.requirements := by
        refine ht.ext hu fun name => ?_
        show t.requirement? name = u.requirement? name
        have hpath (path : List String) := h (name :: path)
        simp only [claimAt?] at hpath
        cases hx : t.requirement? name with
        | none =>
            cases hy : u.requirement? name with
            | none => rfl
            | some y =>
                have := hpath []
                simp [hx, hy, claimAt?] at this
        | some x =>
            cases hy : u.requirement? name with
            | none =>
                have := hpath []
                simp [hx, hy, claimAt?] at this
            | some y =>
                rw [hx, hy] at hpath
                exact congrArg some (ih _ (hmem ht hx) (htbelow _ (hmem ht hx))
                  (hubelow _ (hmem hu hy)) hpath)
      obtain ⟨c, rows⟩ := t
      obtain ⟨c', rows'⟩ := u
      obtain rfl : c = c' := hclaim
      obtain rfl : rows = rows' := hrows
      rfl

end Ty

end WeLang
