import LevelTree.Word

/-!
# Extents and positions

A box of cells is given by its extents, one side length per dimension, and a position in it by one
coordinate per dimension. The product of the sides, the volume, is a word.
-/

namespace LevelTree

/-- Coordinates, one per dimension. -/
abbrev Position := List Nat

/-- Side lengths whose product, from left to right, is a word. -/
structure Extents where
  /-- The side length of each dimension. -/
  sides : List Nat
  /-- The number of cells. -/
  volume : Nat
  volume_eq : Word.product sides = .ok volume
  deriving DecidableEq

namespace Extents

/-- The extents with these sides. -/
def ofSides (sides : List Nat) : Except Fault Extents :=
  match h : Word.product sides with
  | .ok volume => .ok ⟨sides, volume, h⟩
  | .error fault => .error fault

/-- No dimensions: the box of a single cell. -/
def point : Extents := ⟨[], 1, rfl⟩

instance : Inhabited Extents := ⟨point⟩

/-- The coordinates are as many as the sides, and each is below its side. -/
def Inside : List Nat → Position → Prop
  | [], [] => True
  | side :: sides, p :: ps => p < side ∧ Inside sides ps
  | _, _ => False

/-- The position with all coordinates zero. -/
def origin (sides : List Nat) : Position := sides.map fun _ => 0

theorem volume_eq_plainProduct (e : Extents) : e.volume = Word.plainProduct e.sides := by
  simpa using Word.productFrom_eq e.volume_eq

theorem volume_lt (e : Extents) : e.volume < Word.limit :=
  Word.productFrom_lt e.volume_eq (by decide)

theorem sides_ofSides {sides : List Nat} {e : Extents} (h : ofSides sides = .ok e) :
    e.sides = sides := by
  unfold ofSides at h; split at h <;> cases h; rfl

theorem length_of_inside {sides : List Nat} {p : Position} (h : Inside sides p) :
    p.length = sides.length := by
  induction sides generalizing p with
  | nil => cases p <;> simp_all [Inside]
  | cons side sides ih =>
    cases p with
    | nil => exact h.elim
    | cons x xs => simpa using ih h.2

end Extents

end LevelTree
