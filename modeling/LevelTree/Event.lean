import LevelTree.Extents

/-!
# Events

What happens to regions, one step at a time. Regions are named, so that a sequence of events can
be told apart from the regions it makes.
-/

namespace LevelTree

/-- A step in the life of the regions named by `ν`. -/
inductive Event (ν α : Type) where
  /-- The region that all others may end in is created, at the last level. -/
  | floor (name : ν) (level : α)
  /-- A region is created. -/
  | create (name : ν) (level : α)
  /-- A region gets a position. -/
  | add (name : ν) (position : Position)
  /-- A region goes to another level. -/
  | raise (name : ν) (level : α)
  /-- A region takes in all of another one, which is used up. -/
  | merge (name other : ν)
  /-- A region is complete at its level. -/
  | emit (name : ν)
  deriving Repr, DecidableEq

namespace Event

variable {ν α : Type}

/-- The region that an event is about. -/
def subject : Event ν α → ν
  | .floor name _ | .create name _ => name
  | .add name _ | .raise name _ => name
  | .merge name _ | .emit name => name

/-- A position is added. -/
def isAdd : Event ν α → Bool
  | .add .. => true
  | _ => false

/-- A region is merged into another. -/
def isMerge : Event ν α → Bool
  | .merge .. => true
  | _ => false

/-- A region is emitted. -/
def isEmit : Event ν α → Bool
  | .emit .. => true
  | _ => false

end Event

end LevelTree
