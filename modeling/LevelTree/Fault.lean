/-!
# Faults

Arithmetic in 64-bit words and access to stored cells are checked. A fault is the reason such a
check fails; whoever meets one stops, and nothing that was computed so far is used.
-/

namespace LevelTree

/-- The reason a computation stops. -/
inductive Fault where
  /-- A word computation left the range of 64-bit words. -/
  | overflow
  /-- A quotient or remainder by zero was asked for. -/
  | divisionByZero
  /-- A cell, slot, dimension or node that does not exist was used. -/
  | outOfRange
  /-- Two coordinate lists that must be equally long are not. -/
  | lengthMismatch
  /-- A forest has no room for a node of this index. -/
  | nodeLimit (index : Nat)
  /-- An event names a region that is not open. -/
  | unknownRegion
  deriving Repr, DecidableEq, Inhabited

/-- The text that goes with a fault; only the node limit has one. -/
def Fault.message? : Fault → Option String
  | .nodeLimit index => some s!"node index {index} exceeds NodeIndexElem"
  | _ => none

end LevelTree
