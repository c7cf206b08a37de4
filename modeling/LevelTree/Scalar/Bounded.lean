import LevelTree.Scalar

/-!
# Bounded integers

The integers of a range around zero, with arithmetic that wraps at its ends. The main statements
are `ofInt?_toInt`, which reads a number back from its integer, and `negate_toInt`: away from
the least number of a symmetric range, negation is the plain one.
-/

namespace LevelTree

/-- A range of integers around zero. -/
structure IntRange where
  least : Int
  greatest : Int
  least_le : least ≤ 0
  le_greatest : 0 ≤ greatest

namespace IntRange

/-- The naturals of this many bits. -/
def unsigned (bits : Nat) : IntRange where
  least := 0
  greatest := (Nat.pow 2 bits : Nat) - 1
  least_le := by decide
  le_greatest := by have : 0 < Nat.pow 2 bits := Nat.two_pow_pos bits; omega

/-- The integers of a sign and this many more bits. -/
def signed (bits : Nat) : IntRange where
  least := -(Nat.pow 2 bits : Nat)
  greatest := (Nat.pow 2 bits : Nat) - 1
  least_le := by have : 0 < Nat.pow 2 bits := Nat.two_pow_pos bits; omega
  le_greatest := by have : 0 < Nat.pow 2 bits := Nat.two_pow_pos bits; omega

/-- The number of integers in the range. -/
def count (r : IntRange) : Int := r.greatest - r.least + 1

theorem count_pos (r : IntRange) : 0 < r.count := by
  have := r.least_le; have := r.le_greatest; unfold count; omega

end IntRange

/-- An integer of a range. -/
structure Bounded (r : IntRange) where
  toInt : Int
  least_le : r.least ≤ toInt
  le_greatest : toInt ≤ r.greatest
  deriving DecidableEq

namespace Bounded

variable {r : IntRange}

@[ext] theorem ext {a b : Bounded r} (h : a.toInt = b.toInt) : a = b := by
  cases a; cases b; simp_all

/-- The integer as a member of the range, if it is one. -/
def ofInt? (n : Int) : Option (Bounded r) :=
  if h : r.least ≤ n ∧ n ≤ r.greatest then some ⟨n, h.1, h.2⟩ else none

/-- The member of the range that differs from `n` by a multiple of its size. -/
def wrap (n : Int) : Bounded r where
  toInt := r.least + (n - r.least) % r.count
  least_le := by have := Int.emod_nonneg (n - r.least) (Int.ne_of_gt r.count_pos); omega
  le_greatest := by
    have := Int.emod_lt_of_pos (n - r.least) r.count_pos
    unfold IntRange.count at this ⊢
    omega

instance : Inhabited (Bounded r) := ⟨⟨0, r.least_le, r.le_greatest⟩⟩

instance : Scalar (Bounded r) where
  order? a b := some (compare a.toInt b.toInt)
  highest := ⟨r.greatest, Int.le_trans r.least_le r.le_greatest, Int.le_refl _⟩
  lowest := ⟨r.least, Int.le_refl _, Int.le_trans r.least_le r.le_greatest⟩
  negate a := wrap (-a.toInt)

/-- The distance from zero. -/
def magnitude (a : Bounded r) : Int := a.toInt.natAbs

/-- The remainder by `n`, from zero on. -/
def residue (n : Nat) (a : Bounded r) : Int := a.toInt % n

theorem ofInt?_toInt (a : Bounded r) : ofInt? a.toInt = some a := by
  simp [ofInt?, a.least_le, a.le_greatest]

theorem wrap_of_mem {n : Int} (h : r.least ≤ n ∧ n ≤ r.greatest) :
    (wrap n : Bounded r).toInt = n := by
  have : (n - r.least) % r.count = n - r.least :=
    Int.emod_eq_of_lt (by omega) (by unfold IntRange.count; omega)
  simp only [wrap, this]
  omega

/-- Away from the least number of a symmetric range, negation is the plain one. -/
theorem negate_toInt {bits : Nat} {a : Bounded (.signed bits)}
    (h : a.toInt ≠ (IntRange.signed bits).least) : (Scalar.negate a).toInt = -a.toInt := by
  have h₁ := a.least_le
  have h₂ := a.le_greatest
  simp only [IntRange.signed] at h h₁ h₂
  exact wrap_of_mem (by simp only [IntRange.signed]; omega)

end Bounded

end LevelTree
