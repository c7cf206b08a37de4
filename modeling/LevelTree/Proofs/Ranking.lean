import LevelTree.Ranking
import Mathlib.Tactic.Common

/-!
# Laws of a total preorder

The consequences of the three laws that the flood leans on, with `≠ .gt` read as "not after". They
carry the names that the same facts have for `<` and `≤`.
-/

namespace LevelTree.TotalPreorder

variable {α : Type} {rank : Ranking α} {a b c : α}

theorem gt_iff_lt (order : TotalPreorder rank) : rank a b = .gt ↔ rank b a = .lt := by
  rw [order.swap a b]
  cases rank a b <;> simp

theorem not_lt_iff (order : TotalPreorder rank) : rank a b ≠ .lt ↔ rank b a ≠ .gt := by
  rw [not_iff_not, order.gt_iff_lt]

theorem le_of_lt (_ : TotalPreorder rank) (h : rank a b = .lt) : rank a b ≠ .gt := by
  rw [h]
  decide

theorem eq_symm (order : TotalPreorder rank) (h : rank a b = .eq) : rank b a = .eq := by
  rw [order.swap a b, h]
  rfl

theorem le_of_eq (_ : TotalPreorder rank) (h : rank a b = .eq) : rank a b ≠ .gt := by
  rw [h]
  decide

/-- Levels that rank after each other in neither way are level. -/
theorem eq_of_le_of_le (order : TotalPreorder rank) (hab : rank a b ≠ .gt)
    (hba : rank b a ≠ .gt) : rank a b = .eq := by
  rw [← order.not_lt_iff] at hba
  cases h : rank a b <;> simp_all

theorem lt_of_le_of_lt (order : TotalPreorder rank) (hab : rank a b ≠ .gt)
    (hbc : rank b c = .lt) : rank a c = .lt := by
  by_contra hac
  have hca : rank c a ≠ .gt := order.not_lt_iff.1 hac
  have hcb : rank c b ≠ .gt := order.trans c a b hca hab
  exact order.not_lt_iff.2 hcb hbc

theorem lt_of_lt_of_le (order : TotalPreorder rank) (hab : rank a b = .lt)
    (hbc : rank b c ≠ .gt) : rank a c = .lt := by
  by_contra hac
  have hca : rank c a ≠ .gt := order.not_lt_iff.1 hac
  have hba : rank b a ≠ .gt := order.trans b c a hbc hca
  exact order.not_lt_iff.2 hba hab

theorem lt_trans (order : TotalPreorder rank) (hab : rank a b = .lt) (hbc : rank b c = .lt) :
    rank a c = .lt :=
  order.lt_of_lt_of_le hab (by rw [hbc]; decide)

/-- A level with the one above it lies above what that one does. -/
theorem lt_of_lt_of_eq (order : TotalPreorder rank) (hab : rank a b = .lt) (hbc : rank b c = .eq) :
    rank a c = .lt :=
  order.lt_of_lt_of_le hab (by rw [hbc]; decide)

theorem lt_of_eq_of_lt (order : TotalPreorder rank) (hab : rank a b = .eq) (hbc : rank b c = .lt) :
    rank a c = .lt :=
  order.lt_of_le_of_lt (by rw [hab]; decide) hbc

theorem le_of_le_of_eq (order : TotalPreorder rank) (hab : rank a b ≠ .gt) (hbc : rank b c = .eq) :
    rank a c ≠ .gt :=
  order.trans a b c hab (by rw [hbc]; decide)

theorem le_of_eq_of_le (order : TotalPreorder rank) (hab : rank a b = .eq) (hbc : rank b c ≠ .gt) :
    rank a c ≠ .gt :=
  order.trans a b c (by rw [hab]; decide) hbc

theorem eq_trans (order : TotalPreorder rank) (hab : rank a b = .eq) (hbc : rank b c = .eq) :
    rank a c = .eq :=
  order.eq_of_le_of_le (order.le_of_eq_of_le hab (order.le_of_eq hbc))
    (order.le_of_eq_of_le (order.eq_symm hbc) (order.le_of_eq (order.eq_symm hab)))

/-- Levels that are level with each other rank the same against any other level. -/
theorem congr_right (order : TotalPreorder rank) (hbc : rank b c = .eq) : rank a b = rank a c := by
  cases hab : rank a b with
  | lt => exact (order.lt_of_lt_of_eq hab hbc).symm
  | eq => exact (order.eq_trans hab hbc).symm
  | gt =>
    have hba : rank b a = .lt := order.gt_iff_lt.1 hab
    exact (order.gt_iff_lt.2 (order.lt_of_eq_of_lt (order.eq_symm hbc) hba)).symm

theorem congr_left (order : TotalPreorder rank) (hab : rank a b = .eq) : rank a c = rank b c := by
  rw [order.swap c a, order.swap c b, order.congr_right hab]

/-- An order read backwards is an order. -/
theorem swapped (order : TotalPreorder rank) : TotalPreorder fun a b => (rank a b).swap where
  refl := fun a => by rw [order.refl]; rfl
  swap := fun a b => by rw [order.swap a b]
  trans := fun a b c hab hbc => by
    rw [← order.swap] at hab hbc ⊢
    exact order.trans c b a hbc hab

/-- Levels ranked by a number are ranked in an order. -/
theorem ofKey (key : α → Int) : TotalPreorder (Ranking.ofKey key) where
  refl := fun _ => Int.compare_eq_eq.2 rfl
  swap := fun a b => (Int.compare_swap (key a) (key b)).symm
  trans := by
    simp only [Ranking.ofKey, Int.compare_ne_gt]
    intro a b c hab hbc
    exact Int.le_trans hab hbc

end LevelTree.TotalPreorder
