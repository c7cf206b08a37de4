import LevelTree.Extents.Index
import LevelTree.Failure

/-!
# Masks

A mask holds one bit per cell. Bits outside of the stored ones read as false, and a position
outside of the extents cannot be set. The main statement is `unset_setBit`: setting a clear bit
leaves one clear bit less.
-/

namespace LevelTree

/-- A bit per cell, in index order. -/
structure Mask where
  extents : Extents
  bits : Array Bool
  deriving DecidableEq

namespace Mask

/-- No dimensions and no bits. -/
def empty : Mask := ⟨.point, #[]⟩

instance : Inhabited Mask := ⟨empty⟩

/-- The mask with these sides and all bits clear. -/
def blank (sides : List Nat) : Except Fault Mask := do
  let extents ← Extents.ofSides sides
  return ⟨extents, Array.replicate extents.volume false⟩

/-- The mask with these sides over `bits`; their number must be the product of the sides. -/
def ofBits (sides : List Nat) (bits : Array Bool) : Except Failure Mask := do
  let extents ← Extents.ofSides sides
  if bits.size = extents.volume then return ⟨extents, bits⟩
  else throw (.sizeMismatch extents.volume bits.size)

/-- The bit at an index. -/
def bit (m : Mask) (i : Nat) : Bool := m.bits[i]?.getD false

/-- The bit at a position. -/
def get (m : Mask) (p : Position) : Except Fault Bool := do
  match ← m.extents.indexByGrowth p with
  | some i => return m.bit i
  | none => return false

/-- Stores a bit at an index, which must exist. -/
def setBit (m : Mask) (i : Nat) (b : Bool) : Except Fault Mask :=
  if h : i < m.bits.size then .ok { m with bits := m.bits.set i b } else .error .outOfRange

/-- Stores a bit at a position; tells whether the position is inside. -/
def set (m : Mask) (p : Position) (b : Bool) : Except Fault (Bool × Mask) := do
  match ← m.extents.indexByGrowth p with
  | some i =>
    let m ← m.setBit i b
    return (true, m)
  | none => return (false, m)

/-- Stores one more bit, past the extents. -/
def push (m : Mask) (b : Bool) : Mask := { m with bits := m.bits.push b }

/-- The number of set bits. -/
def countSet (m : Mask) : Nat := m.bits.count true

/-- The number of clear bits. -/
def countUnset (m : Mask) : Nat := m.bits.count false

/-- All bits are set. -/
def all (m : Mask) : Bool := m.bits.all id

theorem extents_setBit {m n : Mask} {i : Nat} {b : Bool} (h : m.setBit i b = .ok n) :
    n.extents = m.extents := by
  unfold setBit at h; split at h <;> simp at h; rw [← h]

/-- Setting a clear bit leaves one clear bit less. -/
theorem unset_setBit {m n : Mask} {i : Nat} (h : m.setBit i true = .ok n)
    (clear : m.bit i = false) : n.countUnset + 1 = m.countUnset := by
  unfold setBit at h
  split at h
  next hi =>
    have hbit : m.bits[i] = false := by simpa [bit, hi] using clear
    have hmem : false ∈ m.bits := hbit ▸ Array.getElem_mem hi
    have hpos := Array.count_pos_iff.2 hmem
    cases h
    simp only [countUnset, Array.count_set, hbit]
    simp
    omega
  next => simp at h

end Mask

end LevelTree
