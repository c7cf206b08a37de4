import LevelTree.Scalar

/-!
# Binary floating point

A number of a binary interchange format, kept as its sign and the bits below it. Those bits grow
with the distance from zero, so numbers are ordered by them with the sign put back; beyond
infinity lie the patterns that are not numbers, and these compare with nothing.
-/

namespace LevelTree

/-- The field widths of a binary interchange format. -/
structure BinaryFormat where
  exponentBits : Nat
  fractionBits : Nat
  deriving DecidableEq

namespace BinaryFormat

/-- Four bytes. -/
def single : BinaryFormat := ⟨8, 23⟩

/-- Eight bytes. -/
def double : BinaryFormat := ⟨11, 52⟩

/-- The number of patterns below the sign. -/
def patterns (f : BinaryFormat) : Nat := Nat.pow 2 (f.exponentBits + f.fractionBits)

/-- The pattern of infinity: the largest exponent and no fraction. -/
def infinity (f : BinaryFormat) : Nat := (Nat.pow 2 f.exponentBits - 1) * Nat.pow 2 f.fractionBits

theorem infinity_lt (f : BinaryFormat) : f.infinity < f.patterns := by
  have hadd : f.patterns = Nat.pow 2 f.exponentBits * Nat.pow 2 f.fractionBits := Nat.pow_add ..
  have hpos : 0 < Nat.pow 2 f.exponentBits := Nat.two_pow_pos f.exponentBits
  rw [hadd]
  exact Nat.mul_lt_mul_of_pos_right (by omega) (Nat.two_pow_pos _)

end BinaryFormat

/-- A pattern of a format. -/
structure Binary (f : BinaryFormat) where
  negative : Bool
  pattern : Nat
  pattern_lt : pattern < f.patterns
  deriving DecidableEq

namespace Binary

variable {f : BinaryFormat}

/-- The pattern with these bits, of which the highest is the sign. -/
def ofBits? (bits : Nat) : Option (Binary f) :=
  if h : bits % f.patterns < f.patterns ∧ bits / f.patterns < 2 then
    some ⟨bits / f.patterns == 1, bits % f.patterns, h.1⟩
  else none

/-- The bits of a pattern. -/
def toBits (a : Binary f) : Nat := (if a.negative then f.patterns else 0) + a.pattern

/-- The pattern is no number. -/
def isNaN (a : Binary f) : Bool := f.infinity < a.pattern

/-- The signed pattern: numbers are in the order of their keys, and both zeros have key zero. -/
def key (a : Binary f) : Int := if a.negative then -(a.pattern : Int) else a.pattern

/-- Infinity with a sign. -/
def infinite (negative : Bool) : Binary f := ⟨negative, f.infinity, f.infinity_lt⟩

instance : Inhabited (Binary f) := ⟨⟨false, 0, Nat.two_pow_pos _⟩⟩

instance : Scalar (Binary f) where
  order? a b := if a.isNaN || b.isNaN then none else some (compare a.key b.key)
  highest := infinite false
  lowest := infinite true
  negate a := { a with negative := !a.negative }

/-- The bits of a pattern give the pattern back. -/
theorem ofBits?_toBits (a : Binary f) : ofBits? a.toBits = some a := by
  have hpos : 0 < f.patterns := Nat.two_pow_pos _
  have hlt := a.pattern_lt
  cases a with
  | mk negative pattern h =>
    cases negative
    · simp [ofBits?, toBits, Nat.div_eq_of_lt h, Nat.mod_eq_of_lt h, h]
    · simp [ofBits?, toBits, Nat.add_div_left _ hpos, Nat.div_eq_of_lt h, Nat.mod_eq_of_lt h, h]

/-- A number lies between the infinities. -/
theorem key_le_infinity {a : Binary f} (h : a.isNaN = false) :
    -(f.infinity : Int) ≤ a.key ∧ a.key ≤ f.infinity := by
  have : a.pattern ≤ f.infinity := by simpa [isNaN] using h
  unfold key
  split <;> omega

end Binary

end LevelTree
