import LevelTree.Extents

/-!
# Packed positions

The coordinates of many positions, one after the other. Reading them back cuts the coordinates
into runs of the length of the position that was added last, so positions of one length come back
as they were added (`points_push`).
-/

namespace LevelTree

/-- Positions by their coordinates. -/
structure PointList where
  /-- The number of coordinates of a position. -/
  arity : Nat
  coords : Array Nat
  deriving Repr, DecidableEq, Inhabited

namespace PointList

/-- No positions, and no length for them yet. -/
def empty : PointList := ⟨0, #[]⟩

/-- Adds a position, whose length holds for all from now on. -/
def push (l : PointList) (p : Position) : PointList := ⟨p.length, l.coords ++ p.toArray⟩

/-- The positions of `l` and then those of `m`, at the length of `l` unless that is open. -/
def append (l m : PointList) : PointList :=
  ⟨if l.arity = 0 then m.arity else l.arity, l.coords ++ m.coords⟩

/-- No positions, at the same length. -/
def clear (l : PointList) : PointList := { l with coords := #[] }

/-- Cuts a list into runs of `k + 1` elements; the last run may be shorter. -/
def runs (k : Nat) : List Nat → List (List Nat)
  | [] => []
  | c :: cs => (c :: cs.take k) :: runs k (cs.drop k)
termination_by cs => cs.length
decreasing_by simp only [List.length_drop, List.length_cons]; omega

/-- The positions; without a length for them, each coordinate is one. -/
def points (l : PointList) : List Position := runs (l.arity - 1) l.coords.toList

/-- A full run in front is cut off whole. -/
theorem runs_append {k : Nat} {p cs : List Nat} (h : p.length = k + 1) :
    runs k (p ++ cs) = p :: runs k cs := by
  cases p with
  | nil => simp at h
  | cons c p =>
    have hp : p.length = k := by simpa using h
    rw [List.cons_append, runs, List.take_left' hp, List.drop_left' hp]

/-- Runs of full length are cut where they were joined. -/
theorem runs_flatten {k : Nat} {ps : List (List Nat)} (h : ∀ p ∈ ps, p.length = k + 1) :
    runs k ps.flatten = ps := by
  induction ps with
  | nil => simp [runs]
  | cons p ps ih =>
    rw [List.flatten_cons, runs_append (h p (by simp)), ih fun q hq => h q (by simp [hq])]

end PointList

end LevelTree
