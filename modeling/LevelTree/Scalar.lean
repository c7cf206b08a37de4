/-!
# Scalars

A scalar type has a partial order, a least and a greatest level that nothing ranks beyond, and a
negation. Two scalars that cannot be compared have no order at all.
-/

namespace LevelTree

/-- Values that can be the levels of a picture. -/
class Scalar (α : Type) where
  /-- The order of two values, if they are comparable. -/
  order? : α → α → Option Ordering
  /-- The level that no value ranks above. -/
  highest : α
  /-- The level that no value ranks below. -/
  lowest : α
  /-- The value with the opposite sign. -/
  negate : α → α

namespace Scalar

variable {α : Type} [Scalar α]

/-- `a` is comparable with `b` and below it. -/
def below (a b : α) : Bool := order? a b == some .lt

/-- `a` is comparable with `b` and above it. -/
def above (a b : α) : Bool := order? a b == some .gt

end Scalar

end LevelTree
