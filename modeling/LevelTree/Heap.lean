/-!
# Binary heaps in an array

The children of place `i` are the places `2 * i + 1` and `2 * i + 2`. An element is moved to its
place by swaps along one branch, up or down, and only past elements that it is strictly before or
after; where "before" is an order, the first element is then one that no other is before. Moving
keeps the elements (`siftUp_perm`, `siftDown_perm`), whatever function decides what is before what.
-/

namespace LevelTree.Heap

variable {β : Type} (before : β → β → Bool)

/-- Moves the element at place `i` up while it is before its parent. -/
def siftUp (a : Array β) (i : Nat) : Array β :=
  if h : 0 < i ∧ i < a.size then
    have hp : (i - 1) / 2 < a.size := by omega
    if before a[i] a[(i - 1) / 2] then siftUp (a.swap i ((i - 1) / 2)) ((i - 1) / 2) else a
  else a
termination_by i

/-- Place `j` if it exists and its element is before that at place `i`, and otherwise `i`. -/
def earlier (a : Array β) (i j : Nat) : Nat :=
  if h : i < a.size ∧ j < a.size then if before a[j] a[i] then j else i else i

/-- The earliest of a place and its two children, the left one first. -/
def earliest (a : Array β) (i : Nat) : Nat :=
  earlier before a (earlier before a i (2 * i + 1)) (2 * i + 2)

/-- Moves the element at place `i` down while one of its children is before it. -/
def siftDown (a : Array β) (i : Nat) : Array β :=
  if h : i < earliest before a i ∧ earliest before a i < a.size then
    siftDown (a.swap i (earliest before a i)) (earliest before a i)
  else a
termination_by a.size - i
decreasing_by simp only [Array.size_swap]; omega

/-- Adds an element. -/
def insert (a : Array β) (b : β) : Array β := siftUp before (a.push b) a.size

/-- Takes off the first element; the last one starts again from its place. -/
def removeFirst (a : Array β) (h : 0 < a.size) : Array β :=
  siftDown before (a.swap 0 (a.size - 1)).pop 0

theorem siftUp_perm (a : Array β) (i : Nat) : (siftUp before a i).Perm a := by
  fun_induction siftUp before a i with
  | case1 a i h hp hb ih => exact ih.trans (Array.swap_perm h.2 hp)
  | case2 => exact .refl _
  | case3 => exact .refl _

theorem siftDown_perm (a : Array β) (i : Nat) : (siftDown before a i).Perm a := by
  fun_induction siftDown before a i with
  | case1 a i h ih => exact ih.trans (Array.swap_perm (by omega) h.2)
  | case2 => exact .refl _

theorem insert_perm (a : Array β) (b : β) : (insert before a b).Perm (a.push b) :=
  siftUp_perm before _ _

/-- What is left after taking off the first element. -/
theorem removeFirst_perm (a : Array β) (h : 0 < a.size) :
    ((removeFirst before a h).push a[0]).Perm a := by
  have hlast : a.size - 1 < a.size := by omega
  have hswap : (a.swap 0 (a.size - 1)).Perm a := Array.swap_perm h hlast
  have hback : ((a.swap 0 (a.size - 1)).pop).push a[0] = a.swap 0 (a.size - 1) := by
    apply Array.ext
    · simp; omega
    · intro i h₁ h₂
      simp only [Array.getElem_push]
      split
      · simp
      · have : i = a.size - 1 := by simp at h₂; rename_i hn; simp at hn; omega
        subst this
        simp
  exact (((siftDown_perm before _ 0).push a[0]).trans (by rw [hback])).trans hswap

@[simp] theorem size_insert (a : Array β) (b : β) : (insert before a b).size = a.size + 1 := by
  simpa using (insert_perm before a b).size_eq

@[simp] theorem size_removeFirst (a : Array β) (h : 0 < a.size) :
    (removeFirst before a h).size = a.size - 1 := by
  have := (removeFirst_perm before a h).size_eq
  simp at this
  omega

theorem mem_insert {a : Array β} {b c : β} (h : c ∈ insert before a b) : c ∈ a ∨ c = b := by
  simpa using (insert_perm before a b).mem_iff.1 h

theorem mem_of_mem_removeFirst {a : Array β} {h : 0 < a.size} {c : β}
    (hc : c ∈ removeFirst before a h) : c ∈ a :=
  (removeFirst_perm before a h).mem_iff.1 (by simp [hc])

end LevelTree.Heap
