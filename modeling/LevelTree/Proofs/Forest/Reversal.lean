import LevelTree.Proofs.Forest.Invariance
import LevelTree.Scalar.Bounded

/-!
# Sweeps in opposite ways

A sweep ranks signed integers as the opposite sweep ranks their negations, as long as the least one,
which has no negation, is left out. So a grid makes the same forest as the grid of its negations in the
opposite sweep, at the negated levels (`reversal_symmetry`). The floors are no negations of each other,
but they do not show (`exists_builtAlike`).
-/

namespace LevelTree

variable {bits : Nat} {r : IntRange}

/-! ## Sweeps over integers -/

namespace Sweep

theorem rank_dark : (dark.rank : Ranking (Bounded r)) = .ofKey Bounded.toInt := rfl

theorem rank_bright :
    (bright.rank : Ranking (Bounded r)) = fun a b => (Ranking.ofKey Bounded.toInt a b).swap := rfl

theorem totalPreorder (sweep : Sweep) : TotalPreorder (sweep.rank : Ranking (Bounded r)) := by
  cases sweep with
  | dark => exact rank_dark ▸ .ofKey Bounded.toInt
  | bright => exact rank_bright ▸ (TotalPreorder.ofKey Bounded.toInt).swapped

/-- Only equal integers are level. -/
theorem eq_of_rank_eq (sweep : Sweep) {a b : Bounded r} (h : sweep.rank a b = .eq) : a = b := by
  refine Bounded.ext (Int.compare_eq_eq.1 ?_)
  cases sweep with
  | dark => exact h
  | bright => exact Ordering.swap_eq_eq.1 h

/-- No integer ranks after the last level. -/
theorem rank_lastLevel (sweep : Sweep) (a : Bounded r) : sweep.rank a sweep.lastLevel ≠ .gt := by
  cases sweep with
  | dark => exact Int.compare_ne_gt.2 a.le_greatest
  | bright =>
    intro h
    rw [rank_bright, Ordering.swap_eq_gt] at h
    exact Int.not_lt.2 a.least_le (Int.compare_eq_lt.1 h)

end Sweep

/-! ## Negation -/

/-- The second integer is the negation of the first, which is not the least one. -/
structure Opposite (a b : Bounded (.signed bits)) : Prop where
  inner : a ≠ Scalar.lowest
  eq : b = Scalar.negate a

theorem Opposite.toInt {a b : Bounded (.signed bits)} (h : Opposite a b) : b.toInt = -a.toInt := by
  rw [h.eq]
  exact Bounded.negate_toInt fun hleast => h.inner (Bounded.ext hleast)

/-- Negation turns the order of integers round. -/
theorem compare_neg_neg (m n : Int) : compare (-m) (-n) = (compare m n).swap := by
  rw [Int.compare_swap]
  simp only [Int.compare_eq_ite_lt, Int.neg_lt_neg_iff]

/-- A sweep ranks integers as the opposite sweep ranks their negations. -/
theorem agree_opposite (sweep : Sweep) :
    Agree (@Opposite bits) sweep.rank sweep.reverse.rank := by
  intro a b c d hac hbd
  have hcompare : compare c.toInt d.toInt = (compare a.toInt b.toInt).swap := by
    rw [hac.toInt, hbd.toInt, compare_neg_neg]
  cases sweep with
  | dark =>
    change compare a.toInt b.toInt = (compare c.toInt d.toInt).swap
    rw [hcompare, Ordering.swap_swap]
  | bright => exact hcompare.symm

theorem echoes_negate {g : Grid (Bounded (.signed bits))} (inner : ∀ v ∈ g.cells, v ≠ Scalar.lowest) :
    (Terrain.ofGrid g).Echoes Opposite (Terrain.ofGrid (g.map Scalar.negate)) where
  sides := rfl
  levels := fun p => by
    change Option.Rel Opposite (g.at? p) ((g.map Scalar.negate).at? p)
    rw [Grid.at?_map]
    cases hp : g.at? p with
    | none => exact .none
    | some v => exact .some ⟨inner v (Grid.mem_cells_of_at? hp), rfl⟩

namespace Forest

open Flood

/-- A grid of signed integers without the least one makes the same forest as the grid of their
negations in the opposite sweep, at the negated levels. -/
theorem reversal_symmetry (g : Grid (Bounded (.signed bits))) (full : g.Full)
    (nonempty : g.extents.sides ≠ []) (positive : 0 ∉ g.extents.sides)
    (neighbors : g.extents.sides.length * 2 < Word.limit)
    (inner : ∀ v ∈ g.cells, v ≠ Scalar.lowest) (sweep : Sweep) :
    ∃ log tally, Flood.run (.ofGrid g) (.ofSweep sweep) sweep.lastLevel = .ok ⟨log, .ok tally⟩ ∧
      tally.emitted ≤ g.extents.volume ∧
      BuiltAlike (fun a b => b.toInt = -a.toInt) tally.emitted (build (.ofGrid g) sweep)
        (build (.ofGrid (g.map Scalar.negate)) sweep.reverse) := by
  have full' := Grid.map_full (f := Scalar.negate) full
  obtain ⟨log, tally, hrun, hfew, halike⟩ := exists_builtAlike sweep.totalPreorder
    sweep.reverse.totalPreorder (Terrain.floodable_ofGrid full nonempty positive)
    (Terrain.floodable_ofGrid full' nonempty positive) (Terrain.fits_ofGrid neighbors)
    (Terrain.fits_ofGrid neighbors) (Terrain.whole_ofGrid full) (Terrain.whole_ofGrid full')
    (agree_opposite sweep) (echoes_negate inner)
    (fun ⟨_, a, _, _, hgt⟩ => sweep.rank_lastLevel a hgt)
    (fun ⟨_, a, _, _, hgt⟩ => sweep.reverse.rank_lastLevel a hgt)
  rw [g.extents.volume_eq_plainProduct]
  refine ⟨log, tally, hrun, hfew, halike.mono fun a d => ?_⟩
  -- levels that a sweep does not tell apart are equal
  rintro ⟨b, c, hab, hbc, hcd⟩
  obtain rfl := sweep.eq_of_rank_eq hab
  obtain rfl := sweep.reverse.eq_of_rank_eq hcd
  exact hbc.toInt

/-- A row of bytes from the greatest one to its negation and back. -/
def strait : Grid (Bounded (.signed 7)) where
  extents := ⟨[4], 4, rfl⟩
  cells := #[⟨127, by decide, by decide⟩, ⟨-127, by decide, by decide⟩, ⟨5, by decide, by decide⟩,
    ⟨127, by decide, by decide⟩]

/-- The root of the strait lies at the last level of its sweep, that of the negated strait before it. -/
theorem reversal_symmetry_strait : strait.Full ∧ strait.extents.sides ≠ [] ∧
    0 ∉ strait.extents.sides ∧ strait.extents.sides.length * 2 < Word.limit ∧
    (∀ v ∈ strait.cells, v ≠ Scalar.lowest) ∧
    ∃ f f', build (.ofGrid strait) .dark = .ok f ∧
      build (.ofGrid (strait.map Scalar.negate)) .bright = .ok f' ∧
      f.Echoes (fun a b => b.toInt = -a.toInt) f' := by
  have inner : ∀ v ∈ strait.cells, v ≠ Scalar.lowest := by decide
  obtain ⟨log, tally, -, hfew, halike⟩ :=
    reversal_symmetry strait rfl (by decide) (by decide) (by decide) inner .dark
  obtain ⟨f, f', hf, hf', -, hecho⟩ := halike.few (hfew.trans (by decide))
  exact ⟨rfl, by decide, by decide, by decide, inner, f, f', hf, hf', hecho⟩

/-- Neither way makes forests of a comb with one low cell more than there are indices of nodes, or of a
cell without dimensions. -/
theorem reversal_symmetry_crowded :
    let comb : Grid (Bounded (.signed 7)) :=
      .comb nodeLimit (by decide) ⟨0, by decide, by decide⟩ ⟨1, by decide, by decide⟩
    let dot : Grid (Bounded (.signed 7)) := .dot ⟨5, by decide, by decide⟩
    (comb.Full ∧ comb.extents.sides ≠ [] ∧ 0 ∉ comb.extents.sides ∧
      comb.extents.sides.length * 2 < Word.limit ∧ (∀ v ∈ comb.cells, v ≠ Scalar.lowest) ∧
      build (.ofGrid comb) .dark = .error (.fault (.nodeLimit nodeLimit)) ∧
      build (.ofGrid (comb.map Scalar.negate)) .bright = .error (.fault (.nodeLimit nodeLimit))) ∧
    (dot.Full ∧ 0 ∉ dot.extents.sides ∧ dot.extents.sides.length * 2 < Word.limit ∧
      (∀ v ∈ dot.cells, v ≠ Scalar.lowest) ∧ build (.ofGrid dot) .dark = .error .nothingToFlood ∧
      build (.ofGrid (dot.map Scalar.negate)) .bright = .error .nothingToFlood) := by
  intro comb dot
  constructor
  · refine ⟨Grid.comb_full _, by simp [comb, Grid.comb], by simp [comb, Grid.comb],
      (by decide : 1 * 2 < Word.limit), ?_, ?_, ?_⟩
    · intro v hv
      rcases Grid.mem_comb _ hv with rfl | rfl <;> decide
    · exact buildWith_comb (Sweep.totalPreorder .dark) rfl (by decide) (Nat.le_refl _)
    · rw [Grid.map_comb]
      exact buildWith_comb (Sweep.totalPreorder .bright) rfl (by decide) (Nat.le_refl _)
  · refine ⟨rfl, by decide, by decide, by decide, buildWith_dot _, ?_⟩
    rw [Grid.map_dot]
    exact buildWith_dot _

end Forest

end LevelTree
