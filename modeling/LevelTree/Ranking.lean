import LevelTree.Scalar

/-!
# Rankings

A ranking says which of two levels a flood reaches first. Any function is a ranking; the laws of
an order (`TotalPreorder`) are asked for only where they are used. A sweep runs through the levels
of a scalar type in one of two ways, and levels that cannot be compared rank as equal.
-/

namespace LevelTree

/-- The first level ranks before, level with or after the second. -/
abbrev Ranking (α : Type) := α → α → Ordering

namespace Ranking

variable {α : Type}

/-- Lower values first. -/
def ascending [Scalar α] : Ranking α := fun a b => (Scalar.order? a b).getD .eq

/-- The ranking with its arguments exchanged. -/
def flip (rank : Ranking α) : Ranking α := fun a b => rank b a

/-- Levels ranked by a number computed from them. -/
def ofKey (key : α → Int) : Ranking α := fun a b => compare (key a) (key b)

/-- The same answer for all levels. -/
def always (answer : Ordering) : Ranking α := fun _ _ => answer

end Ranking

/-- A ranking that is an order up to ties: all levels are comparable and "not after" composes. -/
structure TotalPreorder {α : Type} (rank : Ranking α) : Prop where
  refl : ∀ a, rank a a = .eq
  swap : ∀ a b, rank b a = (rank a b).swap
  trans : ∀ a b c, rank a b ≠ .gt → rank b c ≠ .gt → rank a c ≠ .gt

/-- A way through the levels of a scalar type. -/
inductive Sweep where
  /-- From low values to high ones. -/
  | dark
  /-- From high values to low ones. -/
  | bright
  deriving Repr, DecidableEq, Inhabited

namespace Sweep

variable {α : Type} [Scalar α]

/-- The ranking of a sweep. -/
def rank : Sweep → Ranking α
  | .dark => Ranking.ascending
  | .bright => fun a b => (Ranking.ascending a b).swap

/-- The opposite way. -/
def reverse : Sweep → Sweep
  | .dark => .bright
  | .bright => .dark

/-- The level that a sweep reaches last. -/
def lastLevel : Sweep → α
  | .dark => Scalar.highest
  | .bright => Scalar.lowest

end Sweep

end LevelTree
