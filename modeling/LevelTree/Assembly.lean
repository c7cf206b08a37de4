import LevelTree.Event
import LevelTree.Forest

/-!
# Assemblies

An assembly is a forest together with the open regions, by name. Events act on it: they create,
grow, raise and merge regions, and an emission makes a node of the forest. `Assembly.replay` runs
through a sequence of events, and `Assembly.trace` also shows the region each of them is about.
-/

namespace LevelTree

/-- Open regions by name, and the forest they are emitted into. -/
structure Assembly (ν α : Type) where
  regions : List (ν × Region α)
  forest : Forest α

namespace Assembly

variable {ν α : Type} [DecidableEq ν]

/-- No open regions, and this forest. -/
def ofForest (forest : Forest α) : Assembly ν α := ⟨[], forest⟩

/-- The open region with a name. -/
def region (a : Assembly ν α) (name : ν) : Except Fault (Region α) :=
  match a.regions.lookup name with
  | some r => .ok r
  | none => .error .unknownRegion

/-- The assembly without the region of a name. -/
def remove (a : Assembly ν α) (name : ν) : Assembly ν α :=
  { a with regions := a.regions.filter fun entry => entry.1 ≠ name }

/-- The assembly with a region under a name. -/
def insert (a : Assembly ν α) (name : ν) (r : Region α) : Assembly ν α :=
  { a with regions := (name, r) :: (a.remove name).regions }

/-- The assembly after an event. -/
def apply (a : Assembly ν α) : Event ν α → Except Fault (Assembly ν α)
  | .floor name level => return a.insert name (.ofLevel level)
  | .create name level => return a.insert name (.ofLevel level)
  | .add name p => do
    let r ← a.region name
    let r ← r.add p
    return a.insert name r
  | .raise name level => do
    let r ← a.region name
    return a.insert name (r.raise level)
  | .merge name other => do
    let s ← a.region other
    let a := a.remove other
    let r ← a.region name
    let r ← r.merge s
    return a.insert name r
  | .emit name => do
    let r ← a.region name
    let (r, forest) ← a.forest.emit r
    return { a.insert name r with forest }

/-- The assembly with a copy of the region `source` under another name. -/
def copy (a : Assembly ν α) (name source : ν) : Except Fault (Assembly ν α) := do
  let r ← a.region source
  return a.insert name r

/-- The assembly after a sequence of events. -/
def replay (a : Assembly ν α) (events : List (Event ν α)) : Except Fault (Assembly ν α) :=
  events.foldlM apply a

/-- Each event of a sequence, with the region it is about as it stands after the event. -/
def trace (a : Assembly ν α) :
    List (Event ν α) → Except Fault (List (Event ν α × Region α))
  | [] => return []
  | e :: events => do
    let b ← a.apply e
    let r ← b.region e.subject
    let rest ← b.trace events
    return (e, r) :: rest

end Assembly

end LevelTree
