import LevelTree.Proofs.Connectivity
import LevelTree.Proofs.Extents
import Mathlib.Data.Set.Card

/-!
# The cells of a box

The positions inside of the sides can be listed, each of them once, and are as many as the product of
the sides (`ncard_inside`). Without holes, all of them can be reached from the zero position
(`reachable_of_inside`).
-/

namespace LevelTree

theorem Adjacent.cons {p q : Position} (h : Adjacent p q) (x : Nat) :
    Adjacent (x :: p) (x :: q) := by
  obtain ⟨d, a, b, ha, hb, hab, hrest⟩ := h
  refine ⟨d + 1, a, b, ha, hb, hab, fun e he => ?_⟩
  cases e with
  | zero => rfl
  | succ e => exact hrest e fun h => he (congrArg (· + 1) h)

namespace Extents

variable {sides : List Nat} {p : Position}

/-- All positions inside of the sides. -/
def cells : List Nat → List Position
  | [] => [[]]
  | side :: sides => (List.range side).flatMap fun x => (cells sides).map (x :: ·)

theorem mem_cells_iff : p ∈ cells sides ↔ Inside sides p := by
  induction sides generalizing p with
  | nil => cases p <;> simp [cells, Inside]
  | cons side sides ih =>
    cases p with
    | nil => simp [cells, Inside]
    | cons x xs => simp [cells, Inside, ih]

theorem length_cells : (cells sides).length = Word.plainProduct sides := by
  induction sides with
  | nil => rfl
  | cons side sides ih => simp [cells, Word.plainProduct, List.length_flatMap, ih]

theorem nodup_cells : (cells sides).Nodup := by
  induction sides with
  | nil => simp [cells]
  | cons side sides ih =>
    rw [cells, List.nodup_flatMap]
    constructor
    · intro x _
      exact ih.map fun p q h => (List.cons.inj h).2
    · refine List.nodup_range.imp fun hxy => ?_
      intro p hp hq
      obtain ⟨_, -, rfl⟩ := List.mem_map.1 hp
      obtain ⟨_, -, heq⟩ := List.mem_map.1 hq
      exact hxy (List.cons.inj heq).1.symm

/-- There are as many positions inside as the product of the sides says. -/
theorem ncard_inside (sides : List Nat) : {p | Inside sides p}.ncard = Word.plainProduct sides := by
  have hset : {p | Inside sides p} = ((cells sides).toFinset : Set Position) := by
    ext p
    simp [mem_cells_iff]
  rw [hset, Set.ncard_coe_finset, List.toFinset_card_of_nodup nodup_cells, length_cells]

/-- A position that is not the zero position has a neighbour inside that is nearer to that. -/
theorem exists_nearer (hp : Inside sides p) (hne : p ≠ origin sides) :
    ∃ q, Inside sides q ∧ Adjacent q p ∧ q.sum < p.sum := by
  induction sides generalizing p with
  | nil => cases p <;> simp_all [Inside, origin]
  | cons side sides ih =>
    cases p with
    | nil => exact hp.elim
    | cons x xs =>
      cases x with
      | zero =>
        have hxs : xs ≠ origin sides := fun h => hne (by rw [h]; rfl)
        obtain ⟨q, hq, hadj, hlt⟩ := ih hp.2 hxs
        exact ⟨0 :: q, ⟨hp.1, hq⟩, hadj.cons 0, by simpa using hlt⟩
      | succ x =>
        refine ⟨x :: xs, ⟨Nat.lt_of_succ_lt hp.1, hp.2⟩, ?_, by simp⟩
        exact adjacent_set (p := x :: xs) (d := 0) rfl (.inl rfl)

end Extents

namespace Terrain

variable {α : Type} {t : Terrain α} {p : Position}

/-- Without holes, every position inside can be reached. -/
theorem reachable_of_inside (whole : ∀ p, Extents.Inside t.sides p → (t.level? p).isSome)
    (positive : 0 ∉ t.sides) (hp : Extents.Inside t.sides p) : t.Reachable p := by
  have horigin := Extents.inside_origin positive
  induction hsum : p.sum using Nat.strongRecOn generalizing p with
  | ind n ih =>
    by_cases hne : p = Extents.origin t.sides
    · rw [hne]
      exact ⟨⟨horigin, whole _ horigin⟩, .refl⟩
    · obtain ⟨q, hq, hadj, hlt⟩ := Extents.exists_nearer hp hne
      exact (ih q.sum (hsum ▸ hlt) hq rfl).step ⟨hp, whole p hp⟩ hadj

end Terrain

end LevelTree
