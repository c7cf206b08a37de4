import LevelTree.Proofs.Forest.Listing
import LevelTree.Proofs.Ledger

/-!
# Regions and what they stand for

A region packs its fresh positions and refers to the nodes of a forest for the others. It stands for
a holding when both together are the held positions (`Stands`). Each operation on the region goes with
the one on the holding, and so does an emission into the forest (`Stands.settled`).
-/

namespace LevelTree

variable {α : Type} {f g : Forest α} {d : Nat} {h k : Holding α} {r s : Region α} {p : Position}
  {level : α}

namespace Region

/-- A region takes a position as long as its size is a word. -/
theorem add_eq_ok : r.add p = .ok s ↔ r.size + 1 < Word.limit ∧
    { r with size := r.size + 1, points := r.points.push p } = s := by
  rw [add]
  by_cases h : r.size + 1 < Word.limit <;>
    simp [Word.add, Word.check, h, bind, Except.bind, pure, Except.pure]

/-- A region takes in another one as long as its size is a word. -/
theorem merge_eq_ok {u : Region α} : r.merge s = .ok u ↔ r.size + s.size < Word.limit ∧
    { r with
      size := r.size + s.size
      points := r.points.append s.points
      children := r.children ++ s.children ++ s.node.toList } = u := by
  rw [merge]
  by_cases h : r.size + s.size < Word.limit <;>
    simp [Word.add, Word.check, h, bind, Except.bind, pure, Except.pure]

theorem references_add (h : r.add p = .ok s) : s.references = r.references := by
  obtain ⟨-, rfl⟩ := add_eq_ok.1 h
  rfl

/-- A merged region refers to the nodes that both referred to. -/
theorem references_merge {u : Region α} (h : r.merge s = .ok u) :
    u.references.Perm (r.references ++ s.references) := by
  obtain ⟨-, rfl⟩ := merge_eq_ok.1 h
  refine List.perm_iff_count.2 fun a => ?_
  simp only [references, List.count_append]
  omega

end Region

/-- The region has the level of the holding and the number of its positions; it packs the fresh ones,
which are of length `d`, and refers to nodes for the others. -/
structure Stands (f : Forest α) (d : Nat) (h : Holding α) (r : Region α) : Prop where
  level : r.level = h.level
  size : r.size = h.held.length
  coords : r.points.coords.toList = h.fresh.flatten
  arity : r.points.arity = d ∨ r.points.arity = 0 ∧ h.fresh = []
  lengths : ∀ p ∈ h.fresh, p.length = d
  known : ∀ c ∈ r.references, c < f.size
  held : h.held.Perm (h.fresh ++ r.references.flatMap f.listingAt)

/-- The packed positions come back as they were added. -/
theorem Stands.pending_eq (hr : Stands f d h r) (hd : 0 < d) : r.pending = h.fresh := by
  rw [Region.pending, PointList.points, hr.coords]
  rcases hr.arity with harity | ⟨-, hnil⟩
  · rw [harity]
    refine PointList.runs_flatten fun p hp => ?_
    have := hr.lengths p hp
    omega
  · simp [hnil, PointList.runs]

theorem stands_ofLevel : Stands f d (.ofLevel level) (.ofLevel level) where
  level := rfl
  size := rfl
  coords := rfl
  arity := .inr ⟨rfl, rfl⟩
  lengths := by simp [Holding.ofLevel]
  known := by simp [Region.ofLevel, Region.references]
  held := by simp [Region.ofLevel, Region.references, Holding.ofLevel]

theorem Stands.add (hr : Stands f d h r) (hp : p.length = d) (hs : r.add p = .ok s) :
    Stands f d (h.add p) s := by
  obtain ⟨-, rfl⟩ := Region.add_eq_ok.1 hs
  constructor
  case level => exact hr.level
  case size => simp [Holding.add, hr.size]
  case coords => simp [PointList.push, Holding.add, hr.coords]
  case arity => exact .inl hp
  case lengths =>
    intro q hq
    rcases List.mem_append.1 hq with hq | hq
    · exact hr.lengths q hq
    · rw [List.mem_singleton.1 hq, hp]
  case known => exact hr.known
  case held =>
    refine List.perm_iff_count.2 fun a => ?_
    have hcount := hr.held.count_eq a
    simp only [Holding.add, List.count_append] at hcount ⊢
    change _ = _ + _ + List.count a (r.references.flatMap f.listingAt)
    omega

theorem Stands.raise (hr : Stands f d h r) : Stands f d (h.raise level) (r.raise level) where
  level := rfl
  size := hr.size
  coords := hr.coords
  arity := hr.arity
  lengths := hr.lengths
  known := hr.known
  held := hr.held

theorem Stands.merge (hr : Stands f d h r) (hs : Stands f d k s) {u : Region α}
    (hu : r.merge s = .ok u) : Stands f d (h.merge k) u := by
  have hrefs : u.references.Perm (r.references ++ s.references) := Region.references_merge hu
  obtain ⟨-, rfl⟩ := Region.merge_eq_ok.1 hu
  constructor
  case level => exact hr.level
  case size => simp [Holding.merge, hr.size, hs.size]
  case coords => simp [PointList.append, Holding.merge, hr.coords, hs.coords]
  case arity =>
    simp only [PointList.append, Holding.merge, List.append_eq_nil_iff]
    rcases hr.arity with hd | ⟨hzero, hnil⟩
    · by_cases hzero : r.points.arity = 0
      · rw [if_pos hzero]
        rcases hs.arity with hd' | ⟨hzero', -⟩
        · exact .inl hd'
        · exact .inl (hzero'.trans (hzero.symm.trans hd))
      · exact .inl (by rw [if_neg hzero, hd])
    · rw [if_pos hzero]
      exact hs.arity.imp_right fun h => ⟨h.1, hnil, h.2⟩
  case lengths =>
    intro q hq
    rcases List.mem_append.1 hq with hq | hq
    · exact hr.lengths q hq
    · exact hs.lengths q hq
  case known =>
    intro c hc
    rcases List.mem_append.1 (hrefs.mem_iff.1 hc) with hc | hc
    · exact hr.known c hc
    · exact hs.known c hc
  case held =>
    have hlists := hrefs.flatMap_right f.listingAt
    refine List.perm_iff_count.2 fun a => ?_
    have h₁ := hr.held.count_eq a
    have h₂ := hs.held.count_eq a
    have h₃ := hlists.count_eq a
    simp only [Holding.merge, List.flatMap_append, List.count_append] at h₁ h₂ h₃ ⊢
    omega

/-- A region that is not emitted is not touched by an emission. -/
theorem Stands.grown (hr : Stands f d h r) (hg : f.Grown g s) : Stands g d h r where
  level := hr.level
  size := hr.size
  coords := hr.coords
  arity := hr.arity
  lengths := hr.lengths
  known := fun c hc => by
    have := hr.known c hc
    have := hg.size
    omega
  held := by
    have heq : r.references.flatMap g.listingAt = r.references.flatMap f.listingAt :=
      List.flatMap_congr fun c hc => hg.listingAt_old (hr.known c hc)
    rw [heq]
    exact hr.held

/-- The new node of an emitted region has all that was held. -/
theorem Stands.listing_perm (hr : Stands f d h r) (hd : 0 < d) (hg : f.Grown g r) :
    (g.listingAt f.size).Perm h.held := by
  rw [hg.listingAt_new hr.known, hr.pending_eq hd]
  refine List.Perm.trans ?_ hr.held.symm
  exact ((List.reverse_perm _).flatMap_right _).append_left _

/-- After its emission, a region refers to its node for all it holds. -/
theorem Stands.settled (hr : Stands f d h r) (hd : 0 < d) (hg : f.Grown g r) :
    Stands g d h.settled (r.settled f.size) where
  level := hr.level
  size := hr.size
  coords := rfl
  arity := hr.arity.imp_right fun h => ⟨h.1, rfl⟩
  lengths := by simp [Holding.settled]
  known := by simp [Region.settled, Region.references, hg.size]
  held := by
    simp only [Region.settled, Region.references, Holding.settled, Option.toList_some, List.nil_append,
      List.flatMap_singleton]
    exact (hr.listing_perm hd hg).symm

/-- Where nothing is fresh, all that is held is held by the nodes that the regions refer to. -/
theorem perm_listings {ν : Type} {holdings : List (ν × Holding α)} {regions : List (ν × Region α)}
    (h : List.Forall₂ (Entries.Under (Stands f d)) holdings regions)
    (settled : ∀ e ∈ holdings, e.2.fresh = []) :
    (holdings.flatMap (·.2.held)).Perm
      ((regions.flatMap (·.2.references)).flatMap f.listingAt) := by
  induction h with
  | nil => exact .refl _
  | @cons e o _ _ hhead _ ih =>
    have hheld := hhead.2.held
    rw [settled e List.mem_cons_self, List.nil_append] at hheld
    rw [List.flatMap_cons, List.flatMap_cons, List.flatMap_append]
    exact hheld.append (ih fun x hx => settled x (List.mem_cons_of_mem _ hx))

end LevelTree
