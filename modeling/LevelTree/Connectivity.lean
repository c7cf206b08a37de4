import LevelTree.Terrain
import LevelTree.Ranking
import Mathlib.Logic.Relation

/-!
# Connectivity

What a flood is to find, said without a flood. Positions are adjacent when they differ by one in a
single coordinate; a component of a set is a part of it that hangs together through adjacent
positions and cannot be made larger. The components at a level are those of the readable positions
whose levels do not rank after it. The main statement is `Adjacent.symm`.
-/

namespace LevelTree

/-- The positions differ by one in one coordinate, and in no other. -/
def Adjacent (p q : Position) : Prop :=
  ∃ d x y : Nat, p[d]? = some x ∧ q[d]? = some y ∧ (y = x + 1 ∨ x = y + 1) ∧
    ∀ e : Nat, e ≠ d → p[e]? = q[e]?

theorem Adjacent.symm {p q : Position} (h : Adjacent p q) : Adjacent q p := by
  obtain ⟨d, x, y, hp, hq, hxy, hrest⟩ := h
  exact ⟨d, y, x, hq, hp, hxy.symm, fun e he => (hrest e he).symm⟩

/-- A way from `p` to `q` through adjacent positions of the set `s`. -/
def Joined (s : Position → Prop) (p q : Position) : Prop :=
  Relation.ReflTransGen (fun a b => s a ∧ s b ∧ Adjacent a b) p q

/-- The set `c` is all that can be reached within `s` from one of its positions. -/
def IsComponent (s c : Position → Prop) : Prop :=
  ∃ p, s p ∧ ∀ q, c q ↔ Joined s p q

namespace Terrain

variable {α : Type} (t : Terrain α)

/-- The position lies inside of the terrain and has a level. -/
def Readable (p : Position) : Prop := Extents.Inside t.sides p ∧ (t.level? p).isSome

/-- The position is readable, and its level does not rank after `level`. -/
def UpTo (rank : Ranking α) (level : α) (p : Position) : Prop :=
  Extents.Inside t.sides p ∧ ∃ l, t.level? p = some l ∧ rank l level ≠ .gt

/-- The position can be reached from the zero position through readable ones. -/
def Reachable (p : Position) : Prop :=
  t.Readable (Extents.origin t.sides) ∧ Joined t.Readable (Extents.origin t.sides) p

/-- The number of cells is a word, and so is the number of neighbours of a cell. -/
structure Fits : Prop where
  volume : Word.plainProduct t.sides < Word.limit
  neighbors : t.sides.length * 2 < Word.limit

/-- The terrain lies at the origin, has cells, and can be read at its zero position. -/
structure Floodable : Prop where
  corner : ∀ c ∈ t.corner, c = 0
  nonempty : t.sides ≠ []
  positive : 0 ∉ t.sides
  readable : (t.level? (Extents.origin t.sides)).isSome

end Terrain

end LevelTree
