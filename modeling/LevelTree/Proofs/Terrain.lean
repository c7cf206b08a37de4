import LevelTree.Proofs.Connectivity
import LevelTree.Proofs.Extents

/-!
# Grids as terrains

A full grid with a cell can be flooded and has no holes, and it fits into words if its dimensions do. A
row of low cells with a high one between any two, a comb, has as many components at the low level as low
cells, since no way leads from one of them to another (`scattered_comb`).
-/

namespace LevelTree

variable {α β : Type} {p q : Position} {n x : Nat} {low high : α}

namespace Grid

theorem at?_map (f : α → β) (g : Grid α) (p : Position) : (g.map f).at? p = (g.at? p).map f := by
  unfold at? map get?
  cases g.extents.index? p <;> simp

theorem mem_cells_of_at? {g : Grid α} {v : α} (h : g.at? p = some v) : v ∈ g.cells := by
  obtain ⟨i, -, hi⟩ := Option.bind_eq_some_iff.1 h
  exact Array.mem_of_getElem? hi

end Grid

namespace Terrain

section Full

variable {g : Grid α} (full : g.Full)

include full

theorem floodable_ofGrid (nonempty : g.extents.sides ≠ []) (positive : 0 ∉ g.extents.sides) :
    (ofGrid g).Floodable where
  corner := fun c hc => by
    obtain ⟨-, -, rfl⟩ := List.mem_map.1 hc
    rfl
  nonempty := nonempty
  positive := positive
  readable := (Grid.at?_isSome_iff full).2 (Extents.inside_origin positive)

theorem whole_ofGrid :
    ∀ p, Extents.Inside (ofGrid g).sides p → ((ofGrid g).level? p).isSome :=
  fun _ => (Grid.at?_isSome_iff full).2

end Full

theorem fits_ofGrid {g : Grid α} (neighbors : g.extents.sides.length * 2 < Word.limit) :
    (ofGrid g).Fits where
  volume := g.extents.volume_eq_plainProduct ▸ g.extents.volume_lt
  neighbors := neighbors

/-- No two of the places are joined at the level of the first. -/
def Scattered (t : Terrain α) (rank : Ranking α) (place : Fin n → Position) : Prop :=
  ∀ i, ∃ a, t.At (place i) a ∧ ∀ j, Joined (t.UpTo rank a) (place i) (place j) → i = j

end Terrain

/-! ## A single cell -/

/-- One cell, and no dimensions. -/
def Grid.dot (v : α) : Grid α := ⟨.point, #[v]⟩

variable {v : α}

theorem Grid.map_dot (f : α → β) : (dot v).map f = dot (f v) := by simp [map, dot]

namespace Terrain

theorem fits_dot : (ofGrid (Grid.dot v)).Fits := fits_ofGrid (by decide : 0 * 2 < Word.limit)

theorem whole_dot : ∀ p, Extents.Inside (ofGrid (Grid.dot v)).sides p →
    ((ofGrid (Grid.dot v)).level? p).isSome :=
  whole_ofGrid rfl

theorem eq_of_at_dot {a : α} (h : (ofGrid (Grid.dot v)).At p a) : a = v := by
  obtain ⟨hin, hlevel⟩ := h
  match p, hin with
  | [], _ => exact (Option.some.inj hlevel).symm

end Terrain

/-! ## Combs -/

namespace Grid

variable (fits : 2 * n + 1 < Word.limit)

/-- A row of `n + 1` low cells with a high one between any two. -/
def comb (n : Nat) (fits : 2 * n + 1 < Word.limit) (low high : α) : Grid α where
  extents := ⟨[2 * n + 1], 2 * n + 1,
    by simp [Word.product, Word.productFrom, Word.mul, Word.check, fits]⟩
  cells := .ofFn fun i : Fin (2 * n + 1) => if i.val % 2 = 0 then low else high

theorem comb_full : (comb n fits low high).Full := Array.size_ofFn

theorem map_comb (f : α → β) : (comb n fits low high).map f = comb n fits (f low) (f high) := by
  simp only [map, comb, Array.map_ofFn, Function.comp_def, apply_ite f]

theorem mem_comb {v : α} (h : v ∈ (comb n fits low high).cells) : v = low ∨ v = high := by
  obtain ⟨i, rfl⟩ := Array.mem_ofFn.1 h
  split <;> simp

/-- The cells at even numbers are low. -/
theorem at?_comb (hx : x < 2 * n + 1) :
    (comb n fits low high).at? [x] = some (if x % 2 = 0 then low else high) := by
  simp [at?, get?, comb, Extents.index?, Extents.horner, hx]

end Grid

namespace Terrain

variable {a : α} (fits : 2 * n + 1 < Word.limit)

theorem floodable_comb : (ofGrid (Grid.comb n fits low high)).Floodable :=
  floodable_ofGrid (Grid.comb_full fits) (by simp [Grid.comb]) (by simp [Grid.comb])

theorem fits_comb : (ofGrid (Grid.comb n fits low high)).Fits :=
  fits_ofGrid (by decide : 1 * 2 < Word.limit)

theorem whole_comb : ∀ p, Extents.Inside (ofGrid (Grid.comb n fits low high)).sides p →
    ((ofGrid (Grid.comb n fits low high)).level? p).isSome :=
  whole_ofGrid (Grid.comb_full fits)

theorem at_comb_iff : (ofGrid (Grid.comb n fits low high)).At p a ↔
    ∃ x, x < 2 * n + 1 ∧ p = [x] ∧ a = if x % 2 = 0 then low else high := by
  constructor
  · rintro ⟨hin, hlevel⟩
    match p, hin with
    | [x], ⟨hx, _⟩ =>
      have hsome := (Grid.at?_comb fits hx).symm.trans hlevel
      exact ⟨x, hx, rfl, (Option.some.inj hsome).symm⟩
  · rintro ⟨x, hx, rfl, rfl⟩
    exact ⟨⟨hx, trivial⟩, Grid.at?_comb fits hx⟩

/-- No level of a comb ranks after what the high one does not rank after. -/
theorem below_comb {rank : Ranking α} {floor : α} (order : TotalPreorder rank)
    (hlevel : rank high low = .gt) (hhigh : rank high floor ≠ .gt) :
    ∀ p a, (ofGrid (Grid.comb n fits low high)).At p a → rank a floor ≠ .gt := by
  intro p a ha
  obtain ⟨x, -, -, rfl⟩ := (at_comb_iff fits).1 ha
  split
  · exact order.trans _ _ _ (order.le_of_lt (order.gt_iff_lt.1 hlevel)) hhigh
  · exact hhigh

/-- The neighbours of a low cell are high. -/
theorem high_of_adjacent {i : Nat} (hq : (ofGrid (Grid.comb n fits low high)).At q a)
    (h : Adjacent [2 * i] q) : a = high := by
  obtain ⟨z, -, rfl, rfl⟩ := (at_comb_iff fits).1 hq
  obtain ⟨d, x, y, hx, hy, hxy, -⟩ := h
  match d, hx, hy with
  | 0, rfl, rfl => exact if_neg (by omega)

/-- No low cell of a comb has a way to another one. -/
theorem scattered_comb {rank : Ranking α} (hlevel : rank high low = .gt) :
    (ofGrid (Grid.comb n fits low high)).Scattered rank fun i : Fin (n + 1) => [2 * i.val] := by
  intro i
  refine ⟨low, (at_comb_iff fits).2 ⟨2 * i.val, by omega, rfl, by simp⟩, fun j hway => ?_⟩
  have hstay : [2 * j.val] = [2 * i.val] := by
    refine hway.closed (c := (· = [2 * i.val])) rfl fun p q hp hq hpq => ?_
    obtain ⟨b, hb, hle⟩ := upTo_iff.1 hq
    obtain rfl := high_of_adjacent fits hb (hp ▸ hpq)
    exact absurd hlevel hle
  have heq : 2 * j.val = 2 * i.val := by simpa using hstay
  exact Fin.ext (by omega)

end Terrain

end LevelTree
