import LevelTree.Grid

/-!
# Terrains

A terrain is a picture as a flood sees it: its sides, its lowest corner, and the level at each
position. A grid is a terrain with its corner at zero. A position without a level is a hole.
-/

namespace LevelTree

/-- A picture read by position. -/
structure Terrain (α : Type) where
  /-- The side length of each dimension. -/
  sides : List Nat
  /-- The coordinates of the lowest corner. -/
  corner : List Int
  /-- The level at a position, or nothing outside of the picture and in a hole. -/
  level? : Position → Option α

namespace Terrain

variable {α : Type}

/-- A grid as a terrain. -/
def ofGrid (g : Grid α) : Terrain α where
  sides := g.extents.sides
  corner := g.extents.sides.map fun _ => 0
  level? := g.at?

/-- The terrain with its lowest corner at `corner`. -/
def moveTo (t : Terrain α) (corner : List Int) : Terrain α := { t with corner }

/-- The terrain with holes at the listed positions. -/
def pierce (t : Terrain α) (holes : List Position) : Terrain α :=
  { t with level? := fun p => if p ∈ holes then none else t.level? p }

end Terrain

end LevelTree
