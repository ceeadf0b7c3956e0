import WeLang.Parse.Error

/-!
# Misses and failures

A pattern that does not match has missed, and a miss is nothing bad: it says how
far the pattern got and what it would have taken there, and something else is
tried. Only an error ends a parse.

When several patterns miss, the one that got furthest knows most. `Miss.merge`
keeps what is known at the furthest offset and forgets the rest. Up to the offset
at which the first of them started, merging is the union of sets over the
greatest offset, so neither the grouping nor the order matters to what is
expected.
-/

namespace WeLang

/-- How a pattern did not match. -/
structure Miss where
  /-- where the pattern started -/
  start : Nat
  /-- how far it got -/
  offset : Nat
  /-- what it would have taken there -/
  expected : TokenSet
deriving DecidableEq, Inhabited, Repr

namespace Miss

/-- A miss of something that got nowhere and wanted nothing. -/
def nothing (start : Nat) : Miss :=
  ⟨start, start, ∅⟩

/-- The miss seen from a pattern that started elsewhere. -/
def rebase (m : Miss) (start : Nat) : Miss :=
  { m with start }

/-- What two misses say together, from where the first one started. -/
def merge (m n : Miss) : Miss :=
  if m.offset < n.offset then n.rebase m.start
  else if n.offset < m.offset then m
  else { m with expected := m.expected ∪ n.expected }

@[simp] theorem start_merge (m n : Miss) : (m.merge n).start = m.start := by
  unfold merge rebase
  split
  · rfl
  · split <;> rfl

@[simp] theorem offset_merge (m n : Miss) : (m.merge n).offset = max m.offset n.offset := by
  grind [merge, rebase]

end Miss

/-- Why a pattern gave no position. -/
inductive Failure where
  | miss (m : Miss)
  | fatal (e : ParseError)
deriving DecidableEq, Inhabited, Repr

namespace Failure

/-- The failure seen from a pattern that started elsewhere; an error stays what
it is. -/
def rebase (start : Nat) : Failure → Failure
  | miss m => miss (m.rebase start)
  | fatal e => fatal e

@[simp] theorem rebase_miss (start : Nat) (m : Miss) :
    (miss m).rebase start = miss (m.rebase start) := rfl

@[simp] theorem rebase_fatal (start : Nat) (e : ParseError) :
    (fatal e).rebase start = fatal e := rfl

end Failure

end WeLang
