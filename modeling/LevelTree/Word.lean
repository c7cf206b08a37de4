import LevelTree.Fault

/-!
# Word arithmetic

Sizes, indices and coordinates are 64-bit words. They are kept as natural numbers, and each
operation checks that its result is a word. The main statements say what a successful operation
returns: the plain result, and that it is below `2 ^ 64`.
-/

namespace LevelTree.Word

/-- The number of words. -/
def limit : Nat := 0x10000000000000000

/-- The number `n`, if it is a word. -/
def check (n : Nat) : Except Fault Nat :=
  if n < limit then .ok n else .error .overflow

/-- The sum of two words. -/
def add (a b : Nat) : Except Fault Nat := check (a + b)

/-- The difference of two words. -/
def sub (a b : Nat) : Except Fault Nat :=
  if b ≤ a then .ok (a - b) else .error .overflow

/-- The product of two words. -/
def mul (a b : Nat) : Except Fault Nat := check (a * b)

/-- The quotient of two words. -/
def div (a b : Nat) : Except Fault Nat :=
  if b = 0 then .error .divisionByZero else .ok (a / b)

/-- The remainder of two words. -/
def mod (a b : Nat) : Except Fault Nat :=
  if b = 0 then .error .divisionByZero else .ok (a % b)

/-- The product of `acc` and a list of words, from left to right. -/
def productFrom (acc : Nat) : List Nat → Except Fault Nat
  | [] => .ok acc
  | n :: ns =>
    match mul acc n with
    | .ok product => productFrom product ns
    | .error fault => .error fault

/-- The product of a list of numbers, with nothing checked. -/
def plainProduct : List Nat → Nat
  | [] => 1
  | n :: ns => n * plainProduct ns

/-- The product of a list of words. Its prefixes must fit too, so a zero hides only what follows. -/
def product (ns : List Nat) : Except Fault Nat := productFrom 1 ns

theorem check_eq_ok {n m : Nat} : check n = .ok m ↔ n < limit ∧ n = m := by
  unfold check
  split
  next h => simp [h]
  next h => simp only [reduceCtorEq, false_iff]; exact fun hm => h hm.1

theorem mul_eq_ok {a b m : Nat} : mul a b = .ok m ↔ a * b < limit ∧ a * b = m := check_eq_ok

theorem add_eq_ok {a b m : Nat} : add a b = .ok m ↔ a + b < limit ∧ a + b = m := check_eq_ok

/-- A product that succeeds goes on from the product of the first two factors. -/
theorem productFrom_cons {acc n v : Nat} {ns : List Nat} :
    productFrom acc (n :: ns) = .ok v ↔ acc * n < limit ∧ productFrom (acc * n) ns = .ok v := by
  rw [productFrom]
  by_cases h : acc * n < limit <;> simp [mul, check, h]

/-- A successful product is the plain product. -/
theorem productFrom_eq {acc v : Nat} {ns : List Nat} (h : productFrom acc ns = .ok v) :
    v = acc * plainProduct ns := by
  induction ns generalizing acc with
  | nil => simp_all [productFrom, plainProduct]
  | cons n ns ih => simp [plainProduct, ih (productFrom_cons.1 h).2, Nat.mul_assoc]

/-- A successful product of words is a word. -/
theorem productFrom_lt {acc v : Nat} {ns : List Nat} (h : productFrom acc ns = .ok v)
    (hacc : acc < limit) : v < limit := by
  induction ns generalizing acc with
  | nil => simp_all [productFrom]
  | cons n ns ih => exact ih (productFrom_cons.1 h).2 (productFrom_cons.1 h).1

end LevelTree.Word
