import LevelTree.Extents.Index
import LevelTree.Failure

/-!
# Grids

A grid stores one value per cell of its extents, in index order. Cells are read and written by
index or by position, and a position outside of the extents reads as nothing. The main statements
are `read_eq` and `write_eq`, that reading and writing by position never leave the words.
-/

namespace LevelTree

/-- A value per cell, in index order. -/
structure Grid (α : Type) where
  extents : Extents
  cells : Array α
  deriving DecidableEq

namespace Grid

variable {α β : Type}

/-- The number of cells is the volume of the extents. -/
def Full (g : Grid α) : Prop := g.cells.size = g.extents.volume

/-- No dimensions and nothing stored. -/
def empty : Grid α := ⟨.point, #[]⟩

instance : Inhabited (Grid α) := ⟨empty⟩

/-- The grid with these sides over `cells`; their number must be the product of the sides. -/
def ofArray (sides : List Nat) (cells : Array α) : Except Failure (Grid α) := do
  let extents ← Extents.ofSides sides
  if cells.size = extents.volume then return ⟨extents, cells⟩
  else throw (.sizeMismatch extents.volume cells.size)

/-- The grid with these sides and `value` in each cell. -/
def fill (sides : List Nat) (value : α) : Except Fault (Grid α) := do
  let extents ← Extents.ofSides sides
  return ⟨extents, Array.replicate extents.volume value⟩

/-- The grid with these sides and the default value in each cell. -/
def blank [Inhabited α] (sides : List Nat) : Except Fault (Grid α) := fill sides default

/-- The value at an index. -/
def get? (g : Grid α) (i : Nat) : Option α := g.cells[i]?

/-- Stores a value at an index and returns the value it replaces, if the cell exists. -/
def replace (g : Grid α) (i : Nat) (value : α) : Option α × Grid α :=
  (g.get? i, { g with cells := g.cells.setIfInBounds i value })

/-- The value at a position. -/
def read (g : Grid α) (p : Position) : Except Fault (Option α) := do
  match ← g.extents.indexByStrides p with
  | some i => return g.get? i
  | none => return none

/-- Stores a value at a position; tells whether the cell exists. -/
def write (g : Grid α) (p : Position) (value : α) : Except Fault (Bool × Grid α) := do
  match ← g.extents.indexByStrides p with
  | some i => return ((g.get? i).isSome, (g.replace i value).2)
  | none => return (false, g)

/-- The value at the index of a position, if it has one. -/
def at? (g : Grid α) (p : Position) : Option α := (g.extents.index? p).bind g.get?

/-- Applies `f` to each cell. -/
def map (f : α → β) (g : Grid α) : Grid β := ⟨g.extents, g.cells.map f⟩

/-- Applies `f` to each cell and its index. -/
def mapIdx (f : Nat → α → β) (g : Grid α) : Grid β := ⟨g.extents, g.cells.mapIdx f⟩

/-- Reading by position gives the value at its index. -/
@[simp] theorem read_eq (g : Grid α) (p : Position) : g.read p = .ok (g.at? p) := by
  simp only [read, Extents.indexByStrides_eq, bind, Except.bind, at?]
  cases g.extents.index? p <;> rfl

/-- Writing by position replaces the value at its index. -/
theorem write_eq (g : Grid α) (p : Position) (value : α) :
    g.write p value = .ok (
      match g.extents.index? p with
      | some i => ((g.get? i).isSome, (g.replace i value).2)
      | none => (false, g)) := by
  simp only [write, Extents.indexByStrides_eq, bind, Except.bind]
  cases g.extents.index? p <;> rfl

theorem map_full {f : α → β} {g : Grid α} (h : g.Full) : (g.map f).Full := by
  simpa [Full, map] using h

/-- A full grid has a value at a position exactly when the position is inside. -/
theorem at?_isSome_iff {g : Grid α} (h : g.Full) {p : Position} :
    (g.at? p).isSome ↔ Extents.Inside g.extents.sides p := by
  rw [← Extents.index?_isSome_iff]
  cases hi : g.extents.index? p with
  | none => simp [at?, hi]
  | some i =>
    have := Extents.index?_lt hi
    rw [← h] at this
    simp [at?, hi, get?, this]

end Grid

end LevelTree
