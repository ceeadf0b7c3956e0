/-!
# Tables keyed by name

A table is a list of rows, each a name and a value, in the order of the names
and with no name twice. Text is ordered character by character, which is also
the order of its bytes. Keeping the rows in order makes the order in which they
were put in invisible: two tables that answer every question alike are the same
list, and reading a table out needs no sorting.

`Table` is a name for the type of such lists and not a wrapper around them,
because trees that hold tables of themselves have to spell the list out.
-/

namespace WeLang

/-- Rows of names and values. The functions below keep the names in strictly
increasing order. -/
abbrev Table (α : Type) := List (String × α)

namespace Table

variable {α β : Type}

/-- A table in which `name` has the value `x`: the row takes its place among the
others, and replaces the one that had the name before. -/
def insert (name : String) (x : α) : Table α → Table α
  | [] => [(name, x)]
  | row :: rows =>
    if name < row.1 then (name, x) :: row :: rows
    else if name = row.1 then (name, x) :: rows
    else row :: insert name x rows

/-- The table of a list of rows; of two rows with one name the later stays. -/
def ofRows (rows : List (String × α)) : Table α :=
  rows.foldl (fun table row => table.insert row.1 row.2) []

/-- The value that a name has. -/
def get? (table : Table α) (name : String) : Option α :=
  table.lookup name

/-- The names, in order. -/
def names (table : Table α) : List String :=
  table.map Prod.fst

/-- The values, in the order of their names. -/
def values (table : Table α) : List α :=
  table.map Prod.snd

/-- The same names with other values. -/
def mapValues (f : α → β) (table : Table α) : Table β :=
  table.map fun row => (row.1, f row.2)

/-- The names stand in strictly increasing order. -/
def Ordered (table : Table α) : Prop :=
  table.names.Pairwise (· < ·)

instance (table : Table α) : Decidable table.Ordered :=
  inferInstanceAs (Decidable (table.names.Pairwise (· < ·)))

@[simp] theorem names_mapValues (f : α → β) (table : Table α) :
    (table.mapValues f).names = table.names := by
  simp [names, mapValues]

@[simp] theorem values_mapValues (f : α → β) (table : Table α) :
    (table.mapValues f).values = table.values.map f := by
  simp [values, mapValues]

/-- A table is its names and its values side by side. -/
theorem eq_iff_names_values {t u : Table α} : t = u ↔ t.names = u.names ∧ t.values = u.values := by
  induction t generalizing u with
  | nil => cases u <;> simp [names, values]
  | cons row rows ih =>
      cases u with
      | nil => simp [names, values]
      | cons row' rows' =>
          simp only [names, values, List.map_cons, List.cons.injEq] at ih ⊢
          rw [ih, Prod.ext_iff]
          grind

theorem get?_insert_self (name : String) (x : α) (table : Table α) :
    (table.insert name x).get? name = some x := by
  induction table with
  | nil => simp [insert, get?]
  | cons row rows ih =>
      obtain ⟨key, y⟩ := row
      simp only [insert]
      split
      · simp [get?]
      · split
        · simp [get?]
        · rename_i hne
          have hne : (name == key) = false := by simpa using hne
          simpa [get?, List.lookup_cons, hne] using ih

theorem get?_insert_of_ne {name other : String} (h : other ≠ name) (x : α)
    (table : Table α) : (table.insert name x).get? other = table.get? other := by
  have hno : (other == name) = false := by simpa using h
  induction table with
  | nil => simp [insert, get?, List.lookup_cons, hno]
  | cons row rows ih =>
      obtain ⟨key, y⟩ := row
      simp only [insert]
      split
      · simp [get?, List.lookup_cons, hno]
      · split
        · rename_i heq
          have hno' : (other == key) = false := heq ▸ hno
          simp [get?, List.lookup_cons, hno, hno']
        · simp only [get?, List.lookup_cons] at ih ⊢
          rw [ih]

end Table

end WeLang
