import LevelTree.PointList

/-!
# Regions

A region is a part of the picture that still grows: its level, the number of its positions, and
what is not in the forest yet. Positions that were emitted before are held by nodes, and the
region refers to those: the nodes of regions merged into it, and the node it became itself.
-/

namespace LevelTree

/-- A growing region. -/
structure Region (α : Type) where
  level : α
  /-- The number of positions added, merged regions included. -/
  size : Nat
  /-- The positions added since the last emission. -/
  points : PointList
  /-- The nodes of the regions merged in since the last emission. -/
  children : List Nat
  /-- The node of the last emission. -/
  node : Option Nat
  deriving Repr, DecidableEq

namespace Region

variable {α : Type}

/-- The region without positions. -/
def ofLevel (level : α) : Region α := ⟨level, 0, .empty, [], none⟩

/-- Adds a position. -/
def add (r : Region α) (p : Position) : Except Fault (Region α) := do
  let size ← Word.add r.size 1
  return { r with size, points := r.points.push p }

/-- The region at another level. -/
def raise (r : Region α) (level : α) : Region α := { r with level }

/-- Takes in all of another region; its nodes become children. -/
def merge (r other : Region α) : Except Fault (Region α) := do
  let size ← Word.add r.size other.size
  return { r with
    size
    points := r.points.append other.points
    children := r.children ++ other.children ++ other.node.toList }

/-- The positions added since the last emission. -/
def pending (r : Region α) : List Position := r.points.points

/-- The nodes that a node of this region has as children. -/
def references (r : Region α) : List Nat := r.children ++ r.node.toList

/-- The region after it became the node `index`, which holds all it had. -/
def settled (r : Region α) (index : Nat) : Region α :=
  { r with points := r.points.clear, children := [], node := some index }

end Region

end LevelTree
