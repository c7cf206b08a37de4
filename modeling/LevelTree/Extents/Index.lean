import LevelTree.Extents

/-!
# Indices of positions

The cell at a position has a flat index in which the first coordinate varies fastest. The index is
defined by Horner's rule (`index?`) and computed in words in two ways: from the strides of all
dimensions (`indexByStrides`), and with a stride that grows along the way (`indexByGrowth`). The
main statements are that indices stay below the volume (`index?_lt`), and that neither computation
leaves the words or differs from the rule (`indexByStrides_eq`, `indexByGrowth_eq`).
-/

namespace LevelTree.Extents

/-- The index of a position by Horner's rule, or nothing outside of the sides. -/
def horner : List Nat → Position → Option Nat
  | [], [] => some 0
  | side :: sides, p :: ps => if p < side then (horner sides ps).map (p + side * ·) else none
  | _, _ => none

/-- The index of the cell at a position, or nothing outside of the extents. -/
def index? (e : Extents) (p : Position) : Option Nat := horner e.sides p

/-- The stride of each dimension: `stride` times the product of the sides before it. -/
def stridesFrom (stride : Nat) : List Nat → List Nat
  | [] => []
  | side :: sides => stride :: stridesFrom (stride * side) sides

/-- Adds coordinate times stride, dimension by dimension, to `acc`. -/
def sumStrides (acc : Nat) : List Nat → List Nat → Position → Except Fault (Option Nat)
  | side :: sides, stride :: strides, p :: ps => do
    if side ≤ p then return none
    let term ← Word.mul p stride
    let acc ← Word.add acc term
    sumStrides acc sides strides ps
  | _, _, _ => return some acc

/-- The index of a position, computed in words from the strides of the extents. -/
def indexByStrides (e : Extents) (p : Position) : Except Fault (Option Nat) :=
  if p.length = e.sides.length then sumStrides 0 e.sides (stridesFrom 1 e.sides) p
  else .ok none

/-- Adds coordinate times stride to `acc` while the stride grows by each side passed. -/
def sumGrowth (acc stride : Nat) : List Nat → Position → Except Fault (Option Nat)
  | side :: sides, p :: ps => do
    if side ≤ p then return none
    let term ← Word.mul p stride
    let acc ← Word.add acc term
    let stride ← Word.mul stride side
    sumGrowth acc stride sides ps
  | _, _ => return some acc

/-- The index of a position, computed in words with a growing stride. -/
def indexByGrowth (e : Extents) (p : Position) : Except Fault (Option Nat) :=
  if p.length = e.sides.length then sumGrowth 0 1 e.sides p else .ok none

/-- Overwrites `buffer` with the coordinates of a cell, as far as both lists go. -/
def locateIn : List Nat → Nat → List Nat → Except Fault (List Nat)
  | side :: sides, index, _ :: buffer => do
    let p ← Word.mod index side
    let index ← Word.div index side
    let ps ← locateIn sides index buffer
    return p :: ps
  | _, _, buffer => return buffer

/-- Overwrites `buffer` with the position of the cell with this index. -/
def locate (e : Extents) (index : Nat) (buffer : List Nat) : Except Fault (List Nat) :=
  locateIn e.sides index buffer

/-! ## Horner's rule -/

/-- A position has an index exactly when it is inside. -/
theorem horner_isSome_iff {sides : List Nat} {p : Position} :
    (horner sides p).isSome ↔ Inside sides p := by
  induction sides generalizing p with
  | nil => cases p <;> simp [horner, Inside]
  | cons side sides ih =>
    cases p with
    | nil => simp [horner, Inside]
    | cons p ps => by_cases h : p < side <;> simp [horner, Inside, h, ih]

/-- An index stays below the product of the sides. -/
theorem horner_lt {sides : List Nat} {p : Position} {i : Nat} (h : horner sides p = some i) :
    i < Word.plainProduct sides := by
  induction sides generalizing p i with
  | nil =>
    cases p with
    | nil => cases h; exact Nat.zero_lt_one
    | cons => cases h
  | cons side sides ih =>
    cases p with
    | nil => simp [horner] at h
    | cons p ps =>
      by_cases hp : p < side
      · obtain ⟨j, hj, rfl⟩ : ∃ j, horner sides ps = some j ∧ p + side * j = i := by
          simpa [horner, hp] using h
        have hm := Nat.mul_le_mul_left side (Nat.succ_le_of_lt (ih hj))
        rw [Nat.mul_succ] at hm
        rw [Word.plainProduct]
        omega
      · simp [horner, hp] at h

/-- A position of the wrong length has no index. -/
theorem horner_of_length_ne {sides : List Nat} {p : Position} (h : p.length ≠ sides.length) :
    horner sides p = none := by
  rw [← Option.not_isSome_iff_eq_none, horner_isSome_iff]
  exact fun hp => h (length_of_inside hp)

theorem index?_isSome_iff {e : Extents} {p : Position} :
    (e.index? p).isSome ↔ Inside e.sides p := horner_isSome_iff

theorem index?_lt {e : Extents} {p : Position} {i : Nat} (h : e.index? p = some i) :
    i < e.volume := by
  rw [e.volume_eq_plainProduct]; exact horner_lt h

/-! ## The computations in words -/

/-- One more coordinate keeps the sum below the next stride, and so in words. -/
theorem add_term {acc stride side x : Nat} (hacc : acc < stride) (hx : x < side)
    (hfit : stride * side < Word.limit) :
    Word.mul x stride = .ok (x * stride) ∧ Word.add acc (x * stride) = .ok (acc + x * stride) ∧
      acc + x * stride < stride * side := by
  have hterm : x * stride + stride ≤ stride * side := by
    rw [Nat.mul_comm stride, ← Nat.succ_mul]
    exact Nat.mul_le_mul_right stride hx
  exact ⟨Word.mul_eq_ok.2 ⟨by omega, rfl⟩, Word.add_eq_ok.2 ⟨by omega, rfl⟩, by omega⟩

/-- Horner's rule, one coordinate on. -/
theorem map_horner_cons {acc stride side x : Nat} {sides xs : List Nat} (hx : x < side) :
    (horner (side :: sides) (x :: xs)).map (acc + stride * ·) =
      (horner sides xs).map (acc + x * stride + stride * side * ·) := by
  rw [horner, if_pos hx, Option.map_map]
  congr 1
  funext j
  simp only [Function.comp, Nat.mul_add, ← Nat.mul_assoc, Nat.mul_comm x]
  omega

/-- Sums over strides follow Horner's rule in words, as long as the product is a word. -/
theorem sumStrides_eq {acc stride v : Nat} {sides : List Nat} {p : Position}
    (hlen : p.length = sides.length) (hacc : acc < stride)
    (hv : Word.productFrom stride sides = .ok v) :
    sumStrides acc sides (stridesFrom stride sides) p =
      .ok ((horner sides p).map (acc + stride * ·)) := by
  induction sides generalizing acc stride p with
  | nil => cases p <;> simp_all [sumStrides, horner, pure, Except.pure]
  | cons side sides ih =>
    obtain ⟨x, xs, rfl⟩ := List.exists_cons_of_length_eq_add_one hlen
    obtain ⟨hfit, hrest⟩ := Word.productFrom_cons.1 hv
    by_cases hx : x < side
    · obtain ⟨hmul, hadd, hlt⟩ := add_term hacc hx hfit
      rw [map_horner_cons hx, ← ih (by simpa using hlen) hlt hrest]
      simp only [sumStrides, stridesFrom, Nat.not_le.2 hx, if_false, hmul, hadd, bind, Except.bind,
        pure, Except.pure]
    · simp [sumStrides, stridesFrom, horner, hx, Nat.not_lt.1 hx, pure, Except.pure]

/-- Sums with a growing stride follow Horner's rule in words, as long as the product is a word. -/
theorem sumGrowth_eq {acc stride v : Nat} {sides : List Nat} {p : Position}
    (hlen : p.length = sides.length) (hacc : acc < stride)
    (hv : Word.productFrom stride sides = .ok v) :
    sumGrowth acc stride sides p = .ok ((horner sides p).map (acc + stride * ·)) := by
  induction sides generalizing acc stride p with
  | nil => cases p <;> simp_all [sumGrowth, horner, pure, Except.pure]
  | cons side sides ih =>
    obtain ⟨x, xs, rfl⟩ := List.exists_cons_of_length_eq_add_one hlen
    obtain ⟨hfit, hrest⟩ := Word.productFrom_cons.1 hv
    by_cases hx : x < side
    · obtain ⟨hmul, hadd, hlt⟩ := add_term hacc hx hfit
      have hgrow : Word.mul stride side = .ok (stride * side) := Word.mul_eq_ok.2 ⟨hfit, rfl⟩
      rw [map_horner_cons hx, ← ih (by simpa using hlen) hlt hrest]
      simp only [sumGrowth, Nat.not_le.2 hx, if_false, hmul, hadd, hgrow, bind, Except.bind,
        pure, Except.pure]
    · simp [sumGrowth, horner, hx, Nat.not_lt.1 hx, pure, Except.pure]

@[simp] theorem indexByStrides_eq (e : Extents) (p : Position) :
    e.indexByStrides p = .ok (e.index? p) := by
  unfold indexByStrides index?
  split
  next h => simp [sumStrides_eq h Nat.zero_lt_one e.volume_eq]
  next h => rw [horner_of_length_ne h]

@[simp] theorem indexByGrowth_eq (e : Extents) (p : Position) :
    e.indexByGrowth p = .ok (e.index? p) := by
  unfold indexByGrowth index?
  split
  next h => simp [sumGrowth_eq h Nat.zero_lt_one e.volume_eq]
  next h => rw [horner_of_length_ne h]

end LevelTree.Extents
