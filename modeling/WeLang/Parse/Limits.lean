/-!
# Limits of a parse

Two numbers bound what a parse may cost: how deep values may be nested, and how
many attempts at a token may be made. Neither has an influence on what is
accepted, only on when the parser gives up.
-/

namespace WeLang

/-- How much a parse may do before it gives up. -/
structure Limits where
  /-- How many attempts at a token may be made; `none` is no bound. -/
  maxSteps : Option Nat := none
  /-- How deep values may be nested. -/
  maxDepth : Nat := 256
deriving DecidableEq, Inhabited, Repr

namespace Limits

/-- No bound on the attempts, and 256 levels of nesting. -/
def standard : Limits := {}

/-- The bound on the attempts, if so many steps are over it. -/
def exceeded? (l : Limits) (steps : Nat) : Option Nat :=
  l.maxSteps.filter (· < steps)

end Limits

end WeLang
