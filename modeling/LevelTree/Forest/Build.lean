import LevelTree.Assembly
import LevelTree.Flood.Run

/-!
# Building forests

The regions of a flooded terrain make a forest: a node for each level component, with the
components it grew from as children. A flood can also go on in a forest that has nodes already.
-/

namespace LevelTree.Forest

variable {α : Type}

/-- Floods a terrain and emits its regions into a forest. What was emitted stays there when the
flood fails. -/
def grow (f : Forest α) (terrain : Terrain α) (settings : Flood.Settings α) (lastLevel : α) :
    Except Fault (Forest α × Except Failure Flood.Tally) := do
  let outcome ← Flood.run terrain settings lastLevel
  let a ← (Assembly.ofForest f).replay outcome.log.toList
  return (a.forest, outcome.result)

/-- The forest of a terrain whose levels are ranked by `rank`, none after `lastLevel`. -/
def buildWith (terrain : Terrain α) (rank : Ranking α) (lastLevel : α) :
    Except Failure (Forest α) := do
  let (f, result) ← (empty terrain.sides).grow terrain (.ofRanking rank) lastLevel
  let _ ← result
  return f

/-- The forest of a terrain in the order of a sweep. -/
def build [Scalar α] (terrain : Terrain α) (sweep : Sweep) : Except Failure (Forest α) :=
  buildWith terrain sweep.rank sweep.lastLevel

end LevelTree.Forest
