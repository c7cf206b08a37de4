import LevelTree.Fault

/-!
# Failures

A failure is an answer: the input was read, and the reason no result exists is reported in words.
Faults embed into failures, so that a computation can end in either way.
-/

namespace LevelTree

/-- The reason no result exists. -/
inductive Failure where
  /-- The lowest corner of the picture is not the zero position. -/
  | cornerNotZero
  /-- The picture has no dimensions, no cells, or no level at its first position. -/
  | nothingToFlood
  /-- The number of cells differs from the product of the extents. -/
  | sizeMismatch (expected actual : Nat)
  /-- A level beyond the last level was reached. -/
  | aboveFloor
  /-- This many positions were never reached. -/
  | unreached (count : Nat)
  /-- The workers could not be started, for this reason. -/
  | workers (reason : String)
  /-- A fault stopped the computation. -/
  | fault (cause : Fault)
  deriving Repr, DecidableEq, Inhabited

/-- The text of a failure, or nothing for a fault without one. -/
def Failure.message? : Failure → Option String
  | .cornerNotZero => some "image origin must be zero"
  | .nothingToFlood => some "image is empty"
  | .sizeMismatch expected actual =>
    some s!"dimension mismatch: expected {expected} pixels, got {actual}"
  | .aboveFloor => some "empty component stack"
  | .unreached count => some s!"{count} positions were never visited"
  | .workers reason => some s!"cannot build thread pool: {reason}"
  | .fault cause => cause.message?

/-- A computation that may fault is one that may fail. -/
instance : MonadLift (Except Fault) (Except Failure) where
  monadLift
    | .ok a => .ok a
    | .error cause => .error (.fault cause)

end LevelTree
