import LevelTree.Event
import LevelTree.Frontier
import LevelTree.Mask
import LevelTree.Terrain
import LevelTree.Walk

/-!
# The state of a flood

A flood keeps a stack of basins, each lower than the one beneath it, over a floor at the last
level. It stands at one position of the topmost basin, has marked every position it has seen, and
keeps the seen positions that it still has to enter on a frontier. What it does to the regions is
logged and counted; the floor is region 0, and every basin gets the next number.
-/

namespace LevelTree.Flood

/-- A region on the stack, by its name and its level. What else a region holds is left to those who
replay the log. Of its level a flood relies on that it is the one last given to the region: emitting a
region, merging into it and adding to it must leave its level as it is. -/
structure Basin (α : Type) where
  name : Nat
  level : α
  deriving Repr, DecidableEq

/-- What a flood does next. -/
inductive Phase where
  /-- Look at the neighbours that are left, and add the position. -/
  | survey
  /-- Enter the lowest position of the frontier. -/
  | rise
  /-- Emit what is left when the frontier is empty. -/
  | close
  /-- Nothing: all is emitted. -/
  | finished
  /-- Nothing: a basin had to end above the floor. -/
  | stranded
  deriving Repr, DecidableEq, Inhabited

/-- The counts of what was done to the regions. -/
structure Counts where
  /-- Positions added to regions. -/
  added : Nat
  /-- Regions emitted. -/
  emitted : Nat
  /-- Regions merged into others. -/
  merged : Nat
  deriving Repr, DecidableEq, Inhabited

namespace Counts

variable {ν α : Type}

/-- The counts after one more event. -/
def tell (c : Counts) : Event ν α → Counts
  | .add .. => { c with added := c.added + 1 }
  | .emit _ => { c with emitted := c.emitted + 1 }
  | .merge .. => { c with merged := c.merged + 1 }
  | .floor .. | .create .. | .raise .. => c

/-- The counts are those of the events in a log. -/
structure Of (c : Counts) (log : Array (Event ν α)) : Prop where
  added : c.added = log.countP Event.isAdd
  emitted : c.emitted = log.countP Event.isEmit
  merged : c.merged = log.countP Event.isMerge

theorem of_empty : Of ⟨0, 0, 0⟩ (#[] : Array (Event ν α)) := ⟨rfl, rfl, rfl⟩

theorem Of.tell {c : Counts} {log : Array (Event ν α)} (h : c.Of log) (e : Event ν α) :
    (c.tell e).Of (log.push e) := by
  obtain ⟨added, emitted, merged⟩ := h
  cases e <;> constructor <;>
    simp [Counts.tell, Array.countP_push, added, emitted, merged, Event.isAdd, Event.isEmit,
      Event.isMerge]

theorem Of.tellAll {c : Counts} {log : Array (Event ν α)} (h : c.Of log)
    (events : List (Event ν α)) : (events.foldl Counts.tell c).Of (log ++ events) := by
  induction events generalizing c log with
  | nil => simpa using h
  | cons e events ih => simpa using ih (h.tell e)

end Counts

/-- The state of a flood. -/
structure State (α : Type) where
  /-- The positions that were seen. -/
  visited : Mask
  /-- The positions that were seen and not entered, and those left for a lower one. -/
  frontier : Frontier α
  /-- The level of the floor. -/
  floor : α
  /-- The basins, topmost first. -/
  basins : List (Basin α)
  /-- The position of the flood. -/
  position : Position
  /-- The level of the flood. -/
  level : α
  /-- The walk over the neighbours of the position. -/
  walk : Walk
  /-- The name of the next basin. -/
  nextName : Nat
  /-- The greatest length of the frontier so far. -/
  peak : Nat
  phase : Phase
  log : Array (Event Nat α)
  counts : Counts
  counts_of : counts.Of log

namespace State

variable {α : Type}

/-- The topmost region: a basin or, beneath them, the floor. -/
def top (s : State α) : Basin α := s.basins.headD ⟨0, s.floor⟩

/-- The state with an event logged and counted. -/
def tell (s : State α) (e : Event Nat α) : State α :=
  { s with log := s.log.push e, counts := s.counts.tell e, counts_of := s.counts_of.tell e }

/-- The state with events logged and counted. -/
def tellAll (s : State α) (events : List (Event Nat α)) : State α :=
  { s with
    log := s.log ++ events
    counts := events.foldl Counts.tell s.counts
    counts_of := s.counts_of.tellAll events }

@[simp] theorem log_tell (s : State α) (e : Event Nat α) : (s.tell e).log = s.log.push e := rfl

@[simp] theorem phase_tell (s : State α) (e : Event Nat α) : (s.tell e).phase = s.phase := rfl

@[simp] theorem basins_tell (s : State α) (e : Event Nat α) : (s.tell e).basins = s.basins := rfl

@[simp] theorem floor_tell (s : State α) (e : Event Nat α) : (s.tell e).floor = s.floor := rfl

@[simp] theorem log_tellAll (s : State α) (events : List (Event Nat α)) :
    (s.tellAll events).log = s.log ++ events := rfl

/-- The flood is over. -/
def ended (s : State α) : Bool := s.phase == .finished || s.phase == .stranded

/-- The index and level of a position that is readable and was not seen. -/
def unseen? (s : State α) (terrain : Terrain α) (p : Position) :
    Except Fault (Option (Nat × α)) := do
  match ← s.visited.extents.indexByGrowth p with
  | none => return none
  | some i => if s.visited.bit i then return none else return (terrain.level? p).map (i, ·)

/-- The flood at the zero position of a terrain, which must lie at the origin and have cells. -/
def start (terrain : Terrain α) (floor : α) : Except Failure (State α) := do
  if terrain.corner.any (· ≠ 0) then throw .cornerNotZero
  if terrain.sides.isEmpty || terrain.sides.contains 0 then throw .nothingToFlood
  let unmarked ← Mask.blank terrain.sides
  let position := Extents.origin terrain.sides
  match terrain.level? position with
  | none => throw .nothingToFlood
  | some level =>
    let visited ← unmarked.setBit 0 true
    return {
      visited, floor, position, level
      frontier := .empty
      basins := [⟨1, level⟩]
      walk := .start terrain.sides
      nextName := 2
      peak := 0
      phase := .survey
      log := #[.floor 0 floor, .create 1 level]
      counts := ⟨0, 0, 0⟩
      counts_of := (Counts.of_empty.tell (.floor 0 floor)).tell (.create 1 level) }

end State

end LevelTree.Flood
