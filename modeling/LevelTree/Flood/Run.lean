import LevelTree.Flood.Step

/-!
# Running a flood

A flood is run from the zero position until it is over, and answers with its log and either a
tally or the reason why the picture cannot be divided into regions. The log is kept when the
flood fails on the way.
-/

namespace LevelTree.Flood

variable {α : Type}

/-- How a flood is run. -/
structure Settings (α : Type) where
  rank : Ranking α
  /-- Positions that were never reached are a failure. -/
  validate : Bool

namespace Settings

/-- Levels in the order of a ranking, with validation. -/
def ofRanking (rank : Ranking α) : Settings α := ⟨rank, true⟩

/-- Levels in the order of a sweep, with validation. -/
def ofSweep [Scalar α] (sweep : Sweep) : Settings α := ofRanking sweep.rank

instance [Scalar α] : Inhabited (Settings α) := ⟨ofSweep default⟩

/-- The settings with another ranking. -/
def withRanking (settings : Settings α) (rank : Ranking α) : Settings α := { settings with rank }

/-- The settings with the ranking of a sweep. -/
def withSweep [Scalar α] (settings : Settings α) (sweep : Sweep) : Settings α :=
  settings.withRanking sweep.rank

/-- The settings with or without validation. -/
def withValidation (settings : Settings α) (validate : Bool) : Settings α :=
  { settings with validate }

end Settings

/-- The counts of a completed flood. -/
structure Tally extends Counts where
  /-- The greatest number of positions that waited on the frontier. -/
  peak : Nat
  deriving Repr, DecidableEq, Inhabited

/-- What a flood leaves behind. -/
structure Outcome (α : Type) where
  log : Array (Event Nat α)
  result : Except Failure Tally

namespace State

/-- Takes steps until the flood is over. -/
def run (rank : Ranking α) (terrain : Terrain α) (s : State α) : Except Fault (State α) :=
  if _ended : s.ended then .ok s
  else
    match _h : s.tick rank terrain with
    | .error fault => .error fault
    | .ok t => t.run rank terrain
termination_by s.toDo
decreasing_by exact tick_lt ‹s.tick rank terrain = .ok t› (by simpa using ‹¬s.ended = true›)

/-- The counts of a flood so far. -/
def tally (s : State α) : Tally := { s.counts with peak := s.peak }

/-- The result of a flood that is over. -/
def result (s : State α) (validate : Bool) : Except Failure Tally :=
  if s.phase = .stranded then .error .aboveFloor
  else if validate ∧ 0 < s.visited.countUnset then .error (.unreached s.visited.countUnset)
  else .ok s.tally

end State

/-- Floods a terrain from its zero position, over a floor at the last level. -/
def run (terrain : Terrain α) (settings : Settings α) (lastLevel : α) :
    Except Fault (Outcome α) :=
  match State.start terrain lastLevel with
  | .error (.fault fault) => .error fault
  | .error failure => .ok ⟨#[], .error failure⟩
  | .ok s => do
    let s ← s.run settings.rank terrain
    return ⟨s.log, s.result settings.validate⟩

end LevelTree.Flood
