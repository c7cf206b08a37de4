import LevelTree.Fault
import LevelTree.Failure
import LevelTree.Word
import LevelTree.Extents
import LevelTree.Extents.Index
import LevelTree.Grid
import LevelTree.Terrain
import LevelTree.Mask
import LevelTree.Mask.Text
import LevelTree.Scalar
import LevelTree.Scalar.Bounded
import LevelTree.Scalar.Binary
import LevelTree.Ranking
import LevelTree.Connectivity
import LevelTree.Span
import LevelTree.Grid.Cut
import LevelTree.Walk
import LevelTree.Heap
import LevelTree.Frontier
import LevelTree.PointList
import LevelTree.Region
import LevelTree.Forest
import LevelTree.Forest.Listing
import LevelTree.Event
import LevelTree.Assembly
import LevelTree.Flood.State
import LevelTree.Flood.Step
import LevelTree.Flood.Run
import LevelTree.Forest.Build
import LevelTree.Proofs.Frontier
import LevelTree.Proofs.Frontier.Sessions
import LevelTree.Proofs.Frontier.Pool
import LevelTree.Proofs.Extents
import LevelTree.Proofs.Walk
import LevelTree.Proofs.Grid
import LevelTree.Proofs.Mask
import LevelTree.Proofs.Mask.Text
import LevelTree.Proofs.Protocol
import LevelTree.Proofs.Flood.Moves
import LevelTree.Proofs.Flood.Account
import LevelTree.Proofs.Flood.Run
import LevelTree.Proofs.Flood.Coverage
import LevelTree.Proofs.Flood.Terraces
import LevelTree.Proofs.Flood.Books
import LevelTree.Proofs.Flood.Layers
import LevelTree.Proofs.Flood.Verdict
import LevelTree.Proofs.Flood.Visits
import LevelTree.Proofs.Flood.Discipline
import LevelTree.Proofs.Flood.Protocol
import LevelTree.Proofs.Forest.Listing
import LevelTree.Proofs.Region
import LevelTree.Proofs.Assembly
import LevelTree.Proofs.Forest.Upkeep
import LevelTree.Proofs.Forest.Soundness
import LevelTree.Proofs.Cells
import LevelTree.Proofs.Terrain
import LevelTree.Proofs.Forest.Completeness
import LevelTree.Proofs.Forest.Growth
import LevelTree.Proofs.Forest.PostOrder
import LevelTree.Proofs.Flood.Towers
import LevelTree.Proofs.Flood.Parallel
import LevelTree.Proofs.Forest.Invariance
import LevelTree.Proofs.Forest.Reversal
import LevelTree.Proofs.Forest.Grafting
import LevelTree.Proofs.Forest.Gathering
import LevelTree.Proofs.Flood.Schedule
import LevelTree.Proofs.Flood.Balance
import LevelTree.Proofs.Span
import LevelTree.Proofs.Grid.Cut
import LevelTree.Proofs.Writes
import LevelTree.Proofs.Flood.Congruence
import LevelTree.Proofs.Flood.Stranding
import LevelTree.Proofs.Forest.Floats
