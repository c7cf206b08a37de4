import LevelTree.Grid
import LevelTree.Mask
import LevelTree.Scalar
import LevelTree.Span

/-!
# Cutting a grid at a level

A cut is the mask of the cells on one side of a level. The cells are divided among workers, and
what they find is put together in the order of the cells.
-/

namespace LevelTree.Grid

variable {α : Type} [Scalar α]

/-- The cells above a level, or those below it, found by `workers` workers. -/
def cut (g : Grid α) (level : α) (above : Bool) (workers : Nat) : Except Failure Mask := do
  let spans ← Span.divide g.cells.size workers
  let test := fun v => if above then Scalar.above v level else Scalar.below v level
  let parts ← (spans.mapM fun s => (s.slice g.cells).map (·.map test) : Except Fault _)
  Mask.ofBits g.extents.sides (parts.foldl (· ++ ·) #[])

end LevelTree.Grid
