import LevelTree.Word
import LevelTree.Extents

/-!
# Walks over neighbours

The axis neighbours of a position are walked in a fixed order: back and forth along the first
dimension, back and forth along the second, and so on. The walk keeps a cursor, so it can be left
and taken up again. The main statement is `cursor_next`: a step moves the cursor on by one.
-/

namespace LevelTree

/-- A neighbour that a walk came to. -/
structure Neighbor where
  /-- The neighbour lies inside of the sides. -/
  inside : Bool
  /-- Its position, or the position it was looked for from if that is at the lower border. -/
  position : Position
  deriving Repr, DecidableEq

/-- A place in the walk over the neighbours of a position. -/
structure Walk where
  sides : List Nat
  /-- The number of the next neighbour; neighbour `2 * d` lies back along dimension `d`. -/
  cursor : Nat
  deriving Repr, DecidableEq

namespace Walk

/-- The start of a walk between these sides. -/
def start (sides : List Nat) : Walk := ⟨sides, 0⟩

/-- The number of neighbours. -/
def bound (w : Walk) : Nat := w.sides.length * 2

/-- A neighbour is left. -/
def hasNext (w : Walk) : Bool := w.cursor < w.bound

/-- The walk with its cursor at neighbour `cursor`. -/
def seek (w : Walk) (cursor : Nat) : Walk := { w with cursor }

/-- Neighbour `k` of a position. -/
def neighbor (sides : List Nat) (k : Nat) (p : Position) : Except Fault Neighbor :=
  match p[k / 2]? with
  | none => .error .outOfRange
  | some x =>
    if k % 2 = 0 then
      .ok (if x = 0 then ⟨false, p⟩ else ⟨true, p.set (k / 2) (x - 1)⟩)
    else do
      let y ← Word.add x 1
      match sides[k / 2]? with
      | none => throw .outOfRange
      | some side => return ⟨y < side, p.set (k / 2) y⟩

/-- The neighbour at the cursor, and the walk past it. -/
def next (w : Walk) (p : Position) : Except Fault (Neighbor × Walk) :=
  match Word.add w.cursor 1, neighbor w.sides w.cursor p with
  | .ok cursor, .ok n => .ok (n, { w with cursor })
  | .error fault, _ => .error fault
  | _, .error fault => .error fault

/-- As `next`, with the neighbour written over a buffer, which must be as long as the position. -/
def nextInto (w : Walk) (p : Position) (buffer : List Nat) : Except Fault (Neighbor × Walk) :=
  if buffer.length = p.length then w.next p else .error .lengthMismatch

theorem sides_next {w v : Walk} {p : Position} {n : Neighbor} (h : w.next p = .ok (n, v)) :
    v.sides = w.sides := by
  unfold next at h; split at h <;> simp at h; rw [← h.2]

/-- A step moves the cursor on by one. -/
theorem cursor_next {w v : Walk} {p : Position} {n : Neighbor} (h : w.next p = .ok (n, v)) :
    v.cursor = w.cursor + 1 := by
  unfold next at h
  split at h <;> simp at h
  next hadd _ => rw [← h.2]; exact (Word.add_eq_ok.1 hadd).2.symm

theorem bound_next {w v : Walk} {p : Position} {n : Neighbor} (h : w.next p = .ok (n, v)) :
    v.bound = w.bound := by rw [bound, bound, sides_next h]

/-- All neighbours that are left, and the walk past them. -/
def rest (w : Walk) (p : Position) : Except Fault (List Neighbor × Walk) :=
  if w.hasNext then
    match _h : w.next p with
    | .error fault => .error fault
    | .ok (n, v) => (v.rest p).map fun (ns, u) => (n :: ns, u)
  else .ok ([], w)
termination_by w.bound - w.cursor
decreasing_by
  have hlt : w.cursor < w.bound := by simpa [hasNext] using ‹w.hasNext = true›
  have := cursor_next ‹w.next p = .ok (n, v)›
  have := bound_next ‹w.next p = .ok (n, v)›
  omega

end Walk

end LevelTree
