import WeLang.Proofs.Excerpts
import WeLang.Proofs.Seams
import WeLang.Proofs.Statements

/-!
# What is read on an island is read in the whole

A value or a chain of names that some run has made on an island, every run makes in the
whole, with its spans moved to where the island lies (`Source.Island.makes`): the tokens are
the same, and so are the answers of a parser that reads them (`Copy`). What might be
different is what comes behind the last token, which must not be a dot. As long as there is
something left on the island it is what comes there; otherwise it depends on what comes
behind the island, and that has to be known.

With their chains and values, the statements of a module are carried over to the whole, and
so are the collisions of which a parse warns.
-/

namespace WeLang

variable {s t : Source} {d o m k o' δ δ' : Nat} {l l' : Limits} {n : Node}

/-! ## Nodes and spans that are moved -/

theorem Payload.mapChildren_eq_self {p : Payload Node} {f : Node → Node}
    (h : ∀ c ∈ p.children, f c = c) : p.mapChildren f = p := by
  rw [eq_iff]
  refine ⟨?_, ?_⟩
  · cases p <;> simp [shape, mapChildren, Table.mapValues, Function.comp_def]
  · rw [children_mapChildren]
    exact (List.map_congr_left h).trans (List.map_id _)

theorem Node.relocate_id (n : Node) : n.relocate id = n := by
  induction n using Node.inductionOn with
  | step n ih =>
      have hpayload := Payload.mapChildren_eq_self ih
      obtain ⟨selfType, inType, outType, span, payload⟩ := n
      rw [relocate, relocatePayload_eq]
      exact congrArg (Node.mk selfType inType outType span) hpayload

/-- To move the spans of a node twice is to move them once. -/
theorem Node.relocate_relocate (f g : Span → Span) (n : Node) :
    (n.relocate f).relocate g = n.relocate (g ∘ f) := by
  induction n using Node.inductionOn with
  | step n ih =>
      obtain ⟨selfType, inType, outType, span, payload⟩ := n
      rw [relocate, relocate, relocate, relocatePayload_eq, relocatePayload_eq, relocatePayload_eq]
      refine congrArg (Node.mk selfType inType outType (g (f span)))
        ((Payload.eq_iff ..).2 ⟨?_, ?_⟩)
      · cases payload <;> simp [Payload.shape, Payload.mapChildren, Table.mapValues,
          Function.comp_def]
      · rw [Payload.children_mapChildren, Payload.children_mapChildren,
          Payload.children_mapChildren, List.map_map]
        exact List.map_congr_left ih

/-- A span that lies further behind. -/
def Span.shift (d : Nat) : Span → Span :=
  Span.move (d + ·)

theorem Span.shift_zero : Span.shift 0 = id := by
  funext span
  simp [Span.shift, Span.move]

/-- A collision that lies further behind. -/
def KeywordCollision.shift (d : Nat) (c : KeywordCollision) : KeywordCollision :=
  { c with span := c.span.shift d }

theorem KeywordCollision.shift_zero : KeywordCollision.shift 0 = id := by
  funext c
  simp [KeywordCollision.shift, Span.shift_zero]

namespace Source

theorem Island.collisionsOf (h : s.Island d t) {xs : List Lexeme} (hpath : t.Path o xs o') :
    s.collisionsOf (xs.map (Lexeme.shift d)) =
      (t.collisionsOf xs).map (KeywordCollision.shift d) := by
  rw [Source.collisionsOf, Source.collisionsOf, List.filterMap_map, List.map_filterMap]
  refine List.filterMap_congr fun x hx => ?_
  obtain ⟨a, ha⟩ := hpath.exists_lexeme? x hx
  show KeywordCollision.ofToken? (x.shift d).kind s (x.shift d).span = _
  rw [KeywordCollision.ofToken?_of_lexeme? ha, KeywordCollision.ofToken?_of_lexeme? (h.lexeme? ha)]
  show (if x.kind = .identifier then _ else _) = _
  split
  · rw [Option.map_map]
    rfl
  · rfl

/-! ## What comes behind -/

/-- An offset at which nothing is left, or something that is not a dot. -/
def Rests (t : Source) (o : Nat) : Prop :=
  t.isSpent o = true ∨ ∃ x, t.lexeme? o = some x ∧ x.kind ≠ .symbol .identifierSeparator

theorem Rests.closes (h : t.Rests o) : t.Closes o := by
  rcases h with hspent | ⟨x, hx, hk⟩
  · exact closes_of_isSpent hspent
  · intro y hy
    obtain rfl := Option.some.inj (hx.symm.trans hy)
    exact hk

theorem Closes.congr (h : s.Closes o) (heq : s.skipBlanks o = s.skipBlanks o') : s.Closes o' :=
  fun x hx => h x ((lexeme?_congr heq).trans hx)

/-- What comes on the island comes in the whole, or else what comes behind the island. -/
theorem Island.closes (h : s.Island d t) (hbehind : s.Closes (d + t.size)) (hle : o ≤ t.size)
    (hrests : t.Rests o) : s.Closes (d + o) := by
  rcases hrests with hspent | ⟨x, hx, hk⟩
  · exact hbehind.congr (h.toPiece.skipBlanks_of_isSpent hle hspent).symm
  · intro y hy
    obtain rfl := Option.some.inj ((h.lexeme? hx).symm.trans hy)
    exact hk

theorem Token.le_size {kind : TokenKind} (h : t.Token kind o o') : o' ≤ t.size := by
  obtain ⟨x, hx, -, rfl⟩ := h
  exact (lexeme?_bounds hx).2.2.1

theorem Entries.le_size {xs : List Lexeme} (h : t.Entries o xs o') (ho : o ≤ t.size) :
    o' ≤ t.size := by
  induction h with
  | nil o => exact ho
  | cons key path _ _ ih => exact ih (path.le_size key.colon.le_size)

theorem Island.token (h : s.Island d t) {kind : TokenKind} (htoken : t.Token kind o o') :
    s.Token kind (d + o) (d + o') := by
  obtain ⟨x, hx, hk, rfl⟩ := htoken
  exact ⟨x.shift d, h.lexeme? hx, hk, rfl⟩

theorem Island.key (h : s.Island d t) {x : Lexeme} (hkey : t.Key o x m) :
    s.Key (d + o) (x.shift d) (d + m) :=
  ⟨h.lexeme? hkey.here, hkey.name, h.token hkey.colon⟩

end Source

/-! ## Nodes -/

open Matcher Grammar

/-- A value on an island and in the whole, where it may have more blanks in front of it. -/
def Copy.onIsland (h : s.Island d t) (l l' : Limits) (hsteps : l'.maxSteps = none)
    {xs : List Lexeme} (hpath : t.Path m xs k) (hvalue : Language.IsValue (xs.map Lexeme.kind))
    (hleft : t.Closes k) (hright : s.Closes (d + k)) {start : Nat}
    (hstart : s.skipBlanks start = s.skipBlanks (d + m)) : Copy where
  left := ⟨t, l⟩
  right := ⟨s, l'⟩
  move := (d + ·)
  start := m
  stop := k
  start' := start
  stop' := d + k
  xs := xs
  path_left := hpath
  path_right := (h.path hpath).congr (by simpa using Grammar.ne_nil_of_isValue hvalue) hstart.symm
  value := hvalue
  closes_left := hleft
  closes_right := hright
  unlimited := hsteps

/-- What some run has made of a value on the island, every run makes of it in the whole, if
there is as much room for it. -/
theorem Source.Island.makes (h : s.Island d t) (hsteps : l'.maxSteps = none)
    (hroom : l.maxDepth + δ' ≤ l'.maxDepth + δ) {p p' : Matcher}
    (hfollows : ∀ w : Copy, w.left = ⟨t, l⟩ → w.right = ⟨s, l'⟩ →
      w.Follows Language.IsValue p p')
    (hmade : Made ⟨t, l⟩ δ p m n k)
    (hpath : ∃ xs, t.Path m xs k ∧ Language.IsValue (xs.map Lexeme.kind))
    (hleft : t.Closes k) (hright : s.Closes (d + k)) {start : Nat}
    (hstart : s.skipBlanks start = s.skipBlanks (d + m)) :
    Makes ⟨s, l'⟩ δ' p' start (n.relocate (Span.shift d)) (d + k) := by
  obtain ⟨xs, hxs, hvalue⟩ := hpath
  obtain ⟨hδ, e, ⟨r, r', hr, hrun⟩, rfl⟩ := hmade
  have hδ : δ < l.maxDepth := hδ
  let w := Copy.onIsland h l l' hsteps hxs hvalue hleft hright hstart
  refine ⟨show δ' < l'.maxDepth by omega, e.relocate w.place, fun q hq => ?_, ?_⟩
  · have hblank : w.SameState (δ + 1) (δ' + 1) ⟨.blank, r⟩ ⟨.blank, q⟩ :=
      ⟨Draft.relocate_blank.symm, hr, hq⟩
    have hdeeper : l.maxDepth + (δ' + 1) ≤ l'.maxDepth + (δ + 1) := by omega
    obtain ⟨u, hrun', states⟩ := (hfollows w rfl rfl).ok hdeeper hblank hrun
    refine ⟨u.progress, states.depth', ?_⟩
    rw [← states.draft]
    exact hrun'
  · rw [Draft.relocate_finish]
    exact congrArg _ w.spanOf_whole.symm

theorem Matcher.Made.path_of_value (h : Made ⟨t, l⟩ δ (anyValue ⟨t, l⟩) m n k) :
    ∃ xs, t.Path m xs k ∧ Language.IsValue (xs.map Lexeme.kind) := by
  obtain ⟨-, e, hwent, -⟩ := h
  exact leaves_path (hwent.traced (valueWithin_traced ⟨t, l⟩ _))

theorem Matcher.Made.path_of_chain (h : Made ⟨t, l⟩ δ (anyChain ⟨t, l⟩) m n k) :
    ∃ xs, t.Path m xs k ∧ Language.IsValue (xs.map Lexeme.kind) := by
  obtain ⟨-, e, hwent, -⟩ := h
  obtain ⟨xs, hxs, hspells⟩ := Pattern.Traces.path (L := fun _ => Language.IsValue)
    (fun _ _ _ _ _ => leaves_path) identifierChain_local (hwent.traced (anyChain_traced ⟨t, l⟩))
  obtain ⟨i, hi⟩ := spells_identifierChain hspells
  exact ⟨xs, hxs, hi ▸ .chain i⟩

theorem Source.Island.makes_value (h : s.Island d t) (hsteps : l.maxSteps = none)
    (hmade : Made ⟨t, l⟩ δ (anyValue ⟨t, l⟩) m n k) (hleft : t.Closes k)
    (hright : s.Closes (d + k)) :
    Makes ⟨s, l⟩ δ (anyValue ⟨s, l⟩) (d + m) (n.relocate (Span.shift d)) (d + k) := by
  refine h.makes hsteps (Nat.le_refl _) (fun w hleft hright => ?_) hmade hmade.path_of_value hleft
    hright rfl
  rw [← hleft, ← hright]
  exact w.valueWithin_follows (by rw [hleft, hright])

theorem Source.Island.makes_chain (h : s.Island d t) (hsteps : l.maxSteps = none)
    (hmade : Made ⟨t, l⟩ δ (anyChain ⟨t, l⟩) m n k) (hleft : t.Closes k)
    (hright : s.Closes (d + k)) :
    Makes ⟨s, l⟩ δ (anyChain ⟨s, l⟩) (d + m) (n.relocate (Span.shift d)) (d + k) := by
  refine h.makes hsteps (Nat.le_refl _) (fun w hleft hright => ?_) hmade hmade.path_of_chain hleft
    hright rfl
  rw [← hleft, ← hright]
  exact w.identifierChain_follows (by rw [hleft, hright])

/-! ## Statements -/

namespace Source

variable {Q : Nat → Node → Nat → Prop} {paths : List (List String)} {rows : List (Lexeme × Node)}

theorem Uses.le_size
    (hQ : ∀ ⦃m n k⦄, Q m n k → ∃ xs, t.Path m xs k ∧ Language.IsValue (xs.map Lexeme.kind))
    (h : t.Uses Q o paths o') (ho : o ≤ t.size) : o' ≤ t.size := by
  induction h with
  | nil o => exact ho
  | cons hword hchain _ _ ih =>
      obtain ⟨xs, hxs, -⟩ := hQ hchain
      exact ih (hxs.le_size hword.le_size)

theorem Rows.rests (h : t.Rows Q o rows o') (hend : t.isSpent o' = true) : t.Rests o := by
  refine (h.begins hend).imp_right fun hex => ?_
  obtain ⟨x, hx, hname⟩ := hex
  exact ⟨x, hx, by simp [hname]⟩

theorem Uses.rests (h : t.Uses Q o paths o') (hend : t.Rests o') : t.Rests o := by
  cases h with
  | nil _ => exact hend
  | cons hword _ _ _ =>
      obtain ⟨x, hx, hk, -⟩ := hword
      exact .inr ⟨x, hx, by simp [hk]⟩

/-- A key and the node of its value further behind. -/
def shiftRow (d : Nat) (row : Lexeme × Node) : Lexeme × Node :=
  (row.1.shift d, row.2.relocate (Span.shift d))

theorem Island.carries_rows (h : s.Island d t) (hsteps : l.maxSteps = none)
    (hbehind : s.Closes (d + t.size))
    (hrows : t.Rows (Made ⟨t, l⟩ δ (anyValue ⟨t, l⟩)) o rows o') (hend : t.isSpent o' = true) :
    s.Rows (Makes ⟨s, l⟩ δ (anyValue ⟨s, l⟩)) (d + o) (rows.map (shiftRow d)) (d + o') := by
  induction hrows with
  | nil o => exact .nil _
  | cons hkey hvalue htail ih =>
      obtain ⟨xs, hxs, -⟩ := hvalue.path_of_value
      have hrests := htail.rests hend
      have hright := h.closes hbehind (hxs.le_size hkey.colon.le_size) hrests
      exact .cons (h.key hkey) (h.makes_value hsteps hvalue hrests.closes hright) (ih hend)

theorem Island.carries_uses (h : s.Island d t) (hsteps : l.maxSteps = none)
    (hbehind : s.Closes (d + t.size))
    (huses : t.Uses (Made ⟨t, l⟩ δ (anyChain ⟨t, l⟩)) o paths o') (hend : t.Rests o') :
    s.Uses (Makes ⟨s, l⟩ δ (anyChain ⟨s, l⟩)) (d + o) paths (d + o') := by
  induction huses with
  | nil o => exact .nil _
  | cons hword hchain hnames htail ih =>
      obtain ⟨xs, hxs, -⟩ := hchain.path_of_chain
      have hrests := htail.rests hend
      have hright := h.closes hbehind (hxs.le_size hword.le_size) hrests
      refine .cons (h.token hword) (h.makes_chain hsteps hchain hrests.closes hright) ?_ (ih hend)
      rw [Node.payload_relocate, hnames]
      rfl

end Source

end WeLang
