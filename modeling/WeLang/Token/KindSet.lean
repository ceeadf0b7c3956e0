import WeLang.Token.Kind

/-!
# Sets of token kinds

A miss of the parser says which kinds of token it would have taken, and misses
are merged all the time. So a set of kinds is one word with a bit for each
kind: joining two sets is one operation, and two sets with the same members are
the same word (`TokenSet.ext`).
-/

namespace WeLang

/-- A set of token kinds: bit `k.index` says whether `k` is in it. -/
structure TokenSet where
  /-- One bit for each kind. -/
  bits : BitVec TokenKind.count
deriving DecidableEq, Inhabited, Repr

namespace TokenSet

/-- The set without members. -/
def empty : TokenSet :=
  ⟨0⟩

instance : EmptyCollection TokenSet := ⟨empty⟩

/-- The set with one member. -/
def single (k : TokenKind) : TokenSet :=
  ⟨BitVec.twoPow TokenKind.count k.index⟩

/-- Whether a kind is in a set. -/
def contains (s : TokenSet) (k : TokenKind) : Bool :=
  s.bits.getLsbD k.index

instance : Membership TokenKind TokenSet := ⟨fun s k => s.contains k = true⟩

/-- The members of either set. -/
def union (s t : TokenSet) : TokenSet :=
  ⟨s.bits ||| t.bits⟩

instance : Union TokenSet := ⟨union⟩

/-- A set with one more member. -/
def insert (s : TokenSet) (k : TokenKind) : TokenSet :=
  s ∪ single k

/-- The set of the kinds in a list. -/
def ofList (ks : List TokenKind) : TokenSet :=
  ks.foldl insert ∅

/-- Whether a set has no members. -/
def isEmpty (s : TokenSet) : Bool :=
  s.bits == 0

/-- The members, in the order of their indices. -/
def toList (s : TokenSet) : List TokenKind :=
  TokenKind.all.filter s.contains

theorem mem_def {s : TokenSet} {k : TokenKind} : k ∈ s ↔ s.contains k = true :=
  Iff.rfl

instance (s : TokenSet) (k : TokenKind) : Decidable (k ∈ s) :=
  inferInstanceAs (Decidable (s.contains k = true))

theorem ext {s t : TokenSet} (h : ∀ k, k ∈ s ↔ k ∈ t) : s = t := by
  suffices s.bits = t.bits from match s, t, this with | ⟨_⟩, ⟨_⟩, rfl => rfl
  apply BitVec.eq_of_getLsbD_eq
  intro i hi
  have := h (TokenKind.ofIndex ⟨i, hi⟩)
  simp only [mem_def, contains, TokenKind.index_ofIndex] at this
  exact Bool.eq_iff_iff.2 this

@[simp] theorem not_mem_empty (k : TokenKind) : ¬ k ∈ (∅ : TokenSet) := by
  simp [mem_def, contains, EmptyCollection.emptyCollection, empty]

@[simp] theorem mem_single {j k : TokenKind} : j ∈ single k ↔ j = k := by
  simp only [mem_def, contains, single, BitVec.getLsbD_twoPow, Bool.and_eq_true,
    decide_eq_true_eq]
  constructor
  · rintro ⟨_, h⟩
    exact (TokenKind.index_injective h).symm
  · rintro rfl
    exact ⟨TokenKind.index_lt _, rfl⟩

@[simp] theorem mem_union {s t : TokenSet} {k : TokenKind} : k ∈ s ∪ t ↔ k ∈ s ∨ k ∈ t := by
  simp [mem_def, contains, Union.union, union]

@[simp] theorem mem_insert {s : TokenSet} {j k : TokenKind} : j ∈ s.insert k ↔ j ∈ s ∨ j = k := by
  simp [insert]

@[simp] theorem mem_toList {s : TokenSet} {k : TokenKind} : k ∈ s.toList ↔ k ∈ s := by
  simp [toList, TokenKind.mem_all, mem_def]

theorem isEmpty_iff {s : TokenSet} : s.isEmpty = true ↔ s = ∅ := by
  constructor
  · intro h
    exact match s, eq_of_beq h with | ⟨_⟩, rfl => rfl
  · rintro rfl
    rfl

/-- Kinds as a message lists them: commas between, and "or" before the last. -/
def joinKinds : List TokenKind → String
  | [] => "nothing"
  | [k] => k.render
  | [j, k] => j.render ++ " or " ++ k.render
  | j :: ks => j.render ++ ", " ++ joinKinds ks

/-- The members as a message lists them. -/
def render (s : TokenSet) : String :=
  joinKinds s.toList

instance : ToString TokenSet := ⟨render⟩

/-- The members' names in braces, for a developer. -/
def inspect (s : TokenSet) : String :=
  "\x7b" ++ ", ".intercalate (s.toList.map TokenKind.name) ++ "\x7d"

end TokenSet

end WeLang
