import LevelTree.Grid.Cut
import LevelTree.Proofs.Extents
import LevelTree.Proofs.Span
import LevelTree.Scalar.Binary

/-!
# Cuts, cell by cell

A grid that was made from an array, as a blank one, or by applying a function to the cells of such a grid
has as many cells as its extents say (`Made.full`). The spans of a division cover the cells, each of them
once, so that a cut finds the mask that is known cell by cell, whatever the number of workers is
(`cut_pointwise`).
-/

namespace LevelTree

namespace Grid

/-- The ways to make a grid. -/
inductive Made : {α : Type} → Grid α → Prop
  | ofArray {α : Type} {sides : List Nat} {cells : Array α} {g : Grid α}
      (h : Grid.ofArray sides cells = .ok g) : Made g
  | blank {α : Type} [Inhabited α] {sides : List Nat} {g : Grid α}
      (h : Grid.blank sides = .ok g) : Made g
  | map {α β : Type} {g : Grid α} (f : α → β) (made : Made g) : Made (g.map f)

variable {α : Type} {g : Grid α}

theorem full_of_ofArray {sides : List Nat} {cells : Array α} (h : ofArray sides cells = .ok g) :
    g.Full := by
  simp only [ofArray, bind, Except.bind, liftM, monadLift, MonadLift.monadLift] at h
  split at h
  · cases h
  · split at h
    next hsize =>
      cases h
      exact hsize
    next => cases h

theorem full_of_blank [Inhabited α] {sides : List Nat} (h : blank sides = .ok g) : g.Full := by
  simp only [blank, fill, bind, Except.bind, pure, Except.pure] at h
  split at h <;> cases h
  simp [Full]

/-- Every grid that was made has as many cells as its extents say. -/
theorem Made.full (made : g.Made) : g.Full := by
  induction made with
  | ofArray h => exact full_of_ofArray h
  | blank h => exact full_of_blank h
  | map f _ ih => exact map_full ih

variable [Scalar α]

/-- What a cut finds for a cell. -/
def side (level : α) (above : Bool) (v : α) : Bool :=
  if above then Scalar.above v level else Scalar.below v level

/-- What cannot be compared with the level is on no side of it. -/
theorem side_of_incomparable {level v : α} (above : Bool) (h : Scalar.order? v level = none) :
    side level above v = false := by
  cases above <;> simp [side, Scalar.above, Scalar.below, h]

/-- The workers find what is found cell by cell. -/
theorem cut_eq (full : g.Full) (level : α) (above : Bool) (workers : Nat) :
    g.cut level above workers = .ok ⟨g.extents, g.cells.map (side level above)⟩ := by
  have word : g.cells.size < Word.limit := full ▸ g.extents.volume_lt
  obtain ⟨parts, hparts, hwhole⟩ := Span.mapM_slice (side level above)
    (Span.tiles_divide g.cells.size workers) (Nat.le_refl _) word #[]
  rw [Array.extract_size, Array.empty_append] at hwhole
  have hsize : (g.cells.map (side level above)).size = g.extents.volume := by
    rw [Array.size_map]
    exact full
  unfold side at hparts
  simp only [cut, Span.divide_eq word, hparts, bind, Except.bind, liftM, monadLift,
    MonadLift.monadLift]
  simp [hwhole, Mask.ofBits, Extents.ofSides_sides, hsize, bind, Except.bind, pure, Except.pure, liftM,
    monadLift, MonadLift.monadLift]

/-- Every grid can be cut at any level by any number of workers. The mask has the extents of the grid and
a bit for each cell, which tells whether the cell is comparable with the level and above it, or below it;
and all numbers of workers find the same mask. -/
theorem cut_pointwise (g : Grid α) (made : g.Made) (level : α) (above : Bool) (workers : Nat) :
    ∃ m, g.cut level above workers = .ok m ∧ m.extents = g.extents ∧ m.bits.size = g.cells.size ∧
      (∀ i v, g.get? i = some v →
        m.bit i = (if above then Scalar.above v level else Scalar.below v level) ∧
          (Scalar.order? v level = none → m.bit i = false)) ∧
      ∀ others, g.cut level above others = .ok m := by
  refine ⟨_, cut_eq made.full level above workers, rfl, Array.size_map, fun i v hv => ?_,
    fun others => cut_eq made.full level above others⟩
  have hbit : Mask.bit ⟨g.extents, g.cells.map (side level above)⟩ i = side level above v := by
    have hcell : g.cells[i]? = some v := hv
    simp [Mask.bit, hcell]
  exact ⟨hbit, fun hnone => hbit.trans (side_of_incomparable above hnone)⟩

/-- The cells of a row: one and a half, no number, three, and minus infinity. -/
def rowOfFour : Array (Binary .single) :=
  #[⟨false, 0x3fc00000, by decide⟩, ⟨false, 0x7fc00000, by decide⟩, ⟨false, 0x40400000, by decide⟩,
    .infinite true]

/-- Three workers find the one cell of the row that is above two, and the cell that is no number is not
found. -/
theorem cut_pointwise_row : ∃ g : Grid (Binary .single), ofArray [4] rowOfFour = .ok g ∧ g.Made ∧
    ∃ m, g.cut ⟨false, 0x40000000, by decide⟩ true 3 = .ok m ∧ m.extents = g.extents ∧
      m.bits.size = 4 ∧ m.bit 0 = false ∧ m.bit 1 = false ∧ m.bit 2 = true ∧
      ∀ others, g.cut ⟨false, 0x40000000, by decide⟩ true others = .ok m := by
  have hgrid : ofArray [4] rowOfFour = .ok ⟨⟨[4], 4, rfl⟩, rowOfFour⟩ := rfl
  have made : Made (⟨⟨[4], 4, rfl⟩, rowOfFour⟩ : Grid (Binary .single)) := .ofArray hgrid
  obtain ⟨m, hm, hextents, hsize, hbits, hothers⟩ :=
    cut_pointwise _ made (⟨false, 0x40000000, by decide⟩ : Binary .single) true 3
  refine ⟨_, hgrid, made, m, hm, hextents, hsize, ?_, ?_, ?_, hothers⟩
  · exact (hbits 0 _ rfl).1
  · exact (hbits 1 _ rfl).2 rfl
  · exact (hbits 2 _ rfl).1

end Grid

end LevelTree
