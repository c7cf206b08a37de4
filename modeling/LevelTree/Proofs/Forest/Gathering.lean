import LevelTree.Proofs.Forest.Grafting
import LevelTree.Proofs.Forest.Upkeep

/-!
# Listing and masking a node

In every forest that is reached by an orderly use of regions, listing a node depth first gives what the
recursive rule says, as many positions as the node has, and its mask is set at those of them that lie
inside (`Listed`). In a forest that floods over terrains of its sides have made, no position is listed
twice, so that the set bits of the mask are as many as the node has positions (`depth_first`).
-/

namespace LevelTree.Forest

open Flood

variable {ν α : Type} {f g base : Forest α} {n : Node α} {h : Holding α} {i v : Nat} {sides : List Nat}

/-! ## Masks of nodes -/

/-- The listing of a node sets its bits one after the other. -/
theorem exists_mask (hi : i < f.size) (hv : Word.product f.sides = .ok v) :
    ∃ m, f.mask i = .ok m ∧ m.extents.sides = f.sides ∧ m.bits.size = v ∧
      (∀ p, m.Marks p ↔ Extents.Inside f.sides p ∧ p ∈ f.listingAt i) ∧
      ((f.listingAt i).Nodup → (∀ p ∈ f.listingAt i, Extents.Inside f.sides p) →
        m.countSet = (f.listingAt i).length) := by
  obtain ⟨blank, hblank, hsides, hvolume, hfull, hunmarked, hunset⟩ := Mask.blank_spec hv
  obtain ⟨m, hset, all⟩ := Mask.exists_addsAll hfull (f.listingAt i)
  have hsize : m.bits.size = v := all.full.trans (by rw [all.extents, hvolume])
  refine ⟨m, ?_, by rw [all.extents, hsides], hsize, fun p => ?_, fun nodup inside => ?_⟩
  · simp only [mask, hblank, positions_eq hi, bind, Except.bind]
    exact hset
  · rw [all.marks, hsides]
    exact or_iff_left (hunmarked p)
  · have hcount := all.unset nodup fun p hp => ⟨hsides ▸ inside p hp, hunmarked p⟩
    have hbits := m.countSet_add_countUnset
    omega

/-- Where the product of the sides is no word, no mask is made. -/
theorem mask_of_error {fault : Fault} (hv : Word.product f.sides = .error fault) :
    f.mask i = .error fault := by
  have hsides : Extents.ofSides f.sides = .error fault := by
    unfold Extents.ofSides
    split
    next w hw => cases hw.symm.trans hv
    next _ hw => rw [Except.error.inj (hw.symm.trans hv)]
  simp [mask, Mask.blank, hsides, bind, Except.bind]

/-- What is listed and masked of the node with an index. -/
structure Listed (f : Forest α) (i : Nat) (n : Node α) : Prop where
  positions : f.positions i = .ok (f.listingAt i)
  /-- The own positions come first, then those of the children from last to first. -/
  recursive : f.listingAt i = n.own ++ n.children.reverse.flatMap f.listingAt
  length : (f.listingAt i).length = n.size
  /-- The mask has a bit for each cell, which is set where the position of the cell is listed. -/
  mask : ∀ v, Word.product f.sides = .ok v → ∃ m, f.mask i = .ok m ∧ m.extents.sides = f.sides ∧
    m.bits.size = v ∧
    ∀ p, ∃ b, m.get p = .ok b ∧ (b = true ↔ Extents.Inside f.sides p ∧ p ∈ f.listingAt i)
  overflow : ∀ fault, Word.product f.sides = .error fault → f.mask i = .error fault

theorem listed_of_length (hn : f.get? i = some n) (length : (f.listingAt i).length = n.size) :
    Listed f i n where
  positions := positions_eq (get?_lt hn)
  recursive := listingAt_eq hn
  length := length
  mask v hv := by
    obtain ⟨m, hm, hsides, hsize, hmarks, -⟩ := exists_mask (get?_lt hn) hv
    refine ⟨m, hm, hsides, hsize, fun p => ?_⟩
    obtain ⟨b, hb⟩ := m.exists_get p
    refine ⟨b, hb, ?_⟩
    rw [← hmarks, ← Mask.get_eq_true_iff, hb, Except.ok.injEq]
  overflow _ hfault := mask_of_error hfault

theorem length_of_keeps (keeps : Keeps f i h n) : (f.listingAt i).length = n.size :=
  keeps.listing.length_eq.trans keeps.size.symm

/-! ## Nodes behind others -/

theorem listingAt_graft_old (hi : i < base.size) : (base.graft g).listingAt i = base.listingAt i := by
  induction i using Nat.strongRecOn with
  | ind i ih =>
    obtain ⟨n, hn⟩ := exists_get? hi
    have hchildren : n.children.reverse.flatMap (base.graft g).listingAt =
        n.children.reverse.flatMap base.listingAt := by
      refine List.flatMap_congr fun c hc => ?_
      have hlt : c < i := lt_of_mem_children hn (List.mem_reverse.1 hc)
      exact ih c hlt (Nat.lt_trans hlt hi)
    rw [listingAt_eq hn, listingAt_eq ((get?_graft_old hi).trans hn), hchildren]

theorem listingAt_graft_new (base : Forest α) (hi : i < g.size) :
    (base.graft g).listingAt (base.size + i) = g.listingAt i := by
  induction i using Nat.strongRecOn with
  | ind i ih =>
    obtain ⟨n, hn⟩ := exists_get? hi
    have hnew : (base.graft g).get? (base.size + i) = some (n.shift base.size) := by
      rw [get?_graft_new, hn, Option.map_some]
    have hchildren : n.children.reverse.flatMap (fun c => (base.graft g).listingAt (base.size + c)) =
        n.children.reverse.flatMap g.listingAt := by
      refine List.flatMap_congr fun c hc => ?_
      have hlt : c < i := lt_of_mem_children hn (List.mem_reverse.1 hc)
      exact ih c hlt (Nat.lt_trans hlt hi)
    rw [listingAt_eq hn, listingAt_eq hnew, ← hchildren, Node.shift, ← List.map_reverse,
      List.flatMap_map]
    rfl

/-! ## Forests of floods -/

/-- Floods over terrains with these sides have made the forest, one after the other and each with any
ranking and any end. -/
inductive Flooded (sides : List Nat) : Forest α → Prop
  | empty : Flooded sides (empty sides)
  | grow {f g : Forest α} {t : Terrain α} {settings : Settings α} {lastLevel : α}
      {result : Except Failure Tally} (flooded : Flooded sides f) (ht : t.sides = sides)
      (h : f.grow t settings lastLevel = .ok (g, result)) : Flooded sides g

/-- No position of the node is listed twice, and all of them lie inside. -/
structure Distinct (sides : List Nat) (f : Forest α) (i : Nat) (n : Node α) : Prop where
  nodup : (f.listingAt i).Nodup
  inside : ∀ p ∈ f.listingAt i, Extents.Inside sides p
  length : (f.listingAt i).length = n.size
  product : ∃ v, Word.product sides = .ok v

/-- A flood that was recorded leaves such nodes, since no position was added twice. -/
theorem Distinct.of_recorded {t : Terrain α} {log : Array (Event Nat α)} {l : Ledger Nat α}
    {b : Assembly Nat α} (recorded : Recorded t log l) (nodup : (additions log.toList).Nodup)
    (flood : t.Floodable) (fits : t.Fits) (hm : Matches t.sides.length l b)
    (hn : b.forest.get? i = some n) : Distinct t.sides b.forest i n := by
  obtain ⟨h, hh, keeps⟩ := hm.exists_keeps hn
  obtain ⟨rest, hperm⟩ := Ledger.held_of_complete recorded.run (List.mem_of_getElem? hh)
  refine ⟨?_, fun p hp => ?_, length_of_keeps keeps, _, Word.product_of_lt flood.positive fits.volume⟩
  · rw [keeps.listing.nodup_iff]
    exact (List.nodup_append.1 (hperm.nodup_iff.1 nodup)).1
  · have hheld : p ∈ h.held := keeps.listing.mem_iff.1 hp
    exact (recorded.reachable p (hperm.mem_iff.2 (List.mem_append_left _ hheld))).readable.1

/-- The nodes that a flood leaves behind others are as they would be in an empty forest. -/
theorem exists_graft {t : Terrain α} {settings : Settings α} {lastLevel : α}
    {result : Except Failure Tally} (room : f.size ≤ nodeLimit)
    (hgrow : f.grow t settings lastLevel = .ok (g, result)) :
    g.size ≤ nodeLimit ∧ (g = f ∨ ∃ b : Forest α, g = f.graft b ∧
      ∀ i n, b.get? i = some n → Distinct t.sides b i n) := by
  obtain ⟨outcome, a, hrun, hreplay, rfl⟩ := exists_replay_of_grow hgrow
  obtain ⟨hsize, hroom⟩ := Assembly.size_of_replay hreplay
  refine ⟨hroom room, ?_⟩
  rcases visits_of_run hrun with hlog | ⟨u, visits, ended, hlog⟩
  · rw [hlog] at hreplay
    cases hreplay
    exact .inl rfl
  · obtain ⟨flood, fits⟩ := visits.fits ended
    obtain ⟨l, recorded⟩ := visits.recorded
    have nodup : (additions u.log.toList).Nodup := visits.nodup_added
    have hlast : a.forest.size ≤ nodeLimit := hroom room
    have hempty : (Assembly.ofForest f : Assembly Nat α).forest.size = f.size := rfl
    rw [hlog] at hreplay hsize
    rw [hempty, Array.countP_toList] at hsize
    obtain ⟨b, hb, hmatches, -, hcount⟩ := exists_replay_recorded recorded flood fits (by omega)
    have hbehind := Assembly.replay_graft f hb (by omega)
    rw [Assembly.graft_ofForest, hreplay, Except.ok.injEq] at hbehind
    exact .inr ⟨b.forest, by rw [hbehind]; rfl, fun i n hn =>
      .of_recorded recorded nodup flood fits hmatches hn⟩

/-- Floods, one after the other, list no position of a node twice. -/
theorem Flooded.distinct (flooded : Flooded sides f) :
    f.sides = sides ∧ f.size ≤ nodeLimit ∧ ∀ i n, f.get? i = some n → Distinct sides f i n := by
  induction flooded with
  | empty => exact ⟨rfl, Nat.zero_le _, fun i n hn => absurd (get?_lt hn) (Nat.not_lt_zero i)⟩
  | @grow f g t settings lastLevel result _ ht hgrow ih =>
    obtain ⟨hsides, room, hold⟩ := ih
    obtain ⟨hroom, rfl | ⟨b, rfl, hnew⟩⟩ := exists_graft room hgrow
    · exact ⟨hsides, hroom, hold⟩
    · refine ⟨hsides, hroom, fun i n hn => ?_⟩
      rcases Nat.lt_or_ge i f.size with hi | hi
      · rw [get?_graft_old hi] at hn
        obtain ⟨nodup, inside, length, product⟩ := hold i n hn
        rw [← listingAt_graft_old (g := b) hi] at nodup inside length
        exact ⟨nodup, inside, length, product⟩
      · obtain ⟨j, rfl⟩ := Nat.exists_eq_add_of_le hi
        rw [get?_graft_new, Option.map_eq_some_iff] at hn
        obtain ⟨m, hm, rfl⟩ := hn
        obtain ⟨nodup, inside, length, product⟩ := hnew j m hm
        rw [← listingAt_graft_new f (get?_lt hm)] at nodup inside length
        exact ⟨nodup, ht ▸ inside, length, ht ▸ product⟩

/-! ## Every forest -/

/-- Wherever an orderly use of regions leads from an empty forest, with positions of one length, each node
is listed depth first and masked. In a forest of floods over terrains of its sides, moreover, no position
of a node is listed twice, and its mask has as many set bits as it has positions. -/
theorem depth_first [DecidableEq ν] (sides : List Nat) :
    (∀ (d : Nat) (events : List (Event ν α)), 1 ≤ d → Orderly [] events →
      (∀ p ∈ additions events, p.length = d) →
      ∀ a, (Assembly.ofForest (.empty sides)).replay events = .ok a →
        ∀ i n, a.forest.get? i = some n → Listed a.forest i n) ∧
    ∀ f : Forest α, Flooded sides f → f.sides = sides ∧ ∀ i n, f.get? i = some n →
      Listed f i n ∧ (f.listingAt i).Nodup ∧ ∃ m, f.mask i = .ok m ∧ m.countSet = n.size := by
  constructor
  · intro d events hd orderly lengths a ha i n hn
    obtain ⟨l, hl⟩ := Ledger.opens_empty.exists_run orderly
    have hempty : Matches d (Ledger.empty : Ledger ν α) (.ofForest (.empty sides)) :=
      matches_empty sides
    obtain ⟨hmatches, -⟩ :=
      hempty.of_replay hd Ledger.nodup_empty hl lengths (linked_empty sides) ha
    obtain ⟨h, -, keeps⟩ := hmatches.exists_keeps hn
    exact listed_of_length hn (length_of_keeps keeps)
  · intro f flooded
    obtain ⟨hsides, -, hdistinct⟩ := flooded.distinct
    refine ⟨hsides, fun i n hn => ?_⟩
    obtain ⟨nodup, inside, length, v, hv⟩ := hdistinct i n hn
    obtain ⟨m, hm, -, -, -, hcount⟩ := exists_mask (get?_lt hn) (hsides ▸ hv)
    exact ⟨listed_of_length hn length, nodup, m, hm, (hcount nodup (hsides ▸ inside)).trans length⟩

/-- A region that took in two others is listed as the later one did, and two floods of the twins, both
stranded, leave eight nodes without a position listed twice. -/
theorem depth_first_rounds : Orderly [] rounds ∧ (∀ p ∈ additions rounds, p.length = 1) ∧
    (∃ a n, (Assembly.ofForest (.empty [5])).replay rounds = .ok a ∧ a.forest.get? 3 = some n ∧
      Listed a.forest 3 n) ∧
    ∃ (f g : Forest Nat) (n : Node Nat), (empty [4]).grow twins ⟨unequal, true⟩ 5 =
        .ok (f, .error .aboveFloor) ∧
      f.grow twins ⟨unequal, true⟩ 5 = .ok (g, .error .aboveFloor) ∧ Flooded [4] g ∧
      g.get? 7 = some n ∧ n.size = 3 ∧ Listed g 7 n ∧ (g.listingAt 7).Nodup ∧
      ∃ m, g.mask 7 = .ok m ∧ m.countSet = 3 := by
  have orderly : Orderly [] rounds := by decide
  have lengths : ∀ p ∈ additions rounds, p.length = 1 := by decide
  refine ⟨orderly, lengths, ?_, ?_⟩
  · have heval : ((Assembly.ofForest (.empty [5])).replay rounds).map
        (fun a => (a.forest.get? 3).isSome) = .ok true := by decide +kernel
    cases ha : (Assembly.ofForest (.empty [5])).replay rounds with
    | error fault => simp [ha, Except.map] at heval
    | ok a =>
      rw [ha] at heval
      obtain ⟨n, hn⟩ := Option.isSome_iff_exists.1 (Except.ok.inj heval)
      exact ⟨a, n, rfl, hn, (depth_first [5]).1 1 rounds (Nat.le_refl 1) orderly lengths a ha 3 n hn⟩
  · have heval : ((empty [4]).grow twins ⟨unequal, true⟩ 5).bind (fun first =>
        (first.1.grow twins ⟨unequal, true⟩ 5).map fun second =>
          (first.2, second.2, (second.1.get? 7).map (·.size))) =
        .ok (.error .aboveFloor, .error .aboveFloor, some 3) := by decide +kernel
    cases hf : (empty [4]).grow twins ⟨unequal, true⟩ 5 with
    | error fault => simp [hf, Except.bind] at heval
    | ok first =>
      obtain ⟨f, result⟩ := first
      cases hg : f.grow twins ⟨unequal, true⟩ 5 with
      | error fault => simp [hf, hg, Except.bind, Except.map] at heval
      | ok second =>
        obtain ⟨g, result'⟩ := second
        simp only [hf, hg, Except.bind, Except.map, Except.ok.injEq, Prod.mk.injEq,
          Option.map_eq_some_iff] at heval
        obtain ⟨rfl, rfl, n, hn, hsize⟩ := heval
        have flooded : Flooded [4] g := .grow (.grow .empty rfl hf) rfl hg
        obtain ⟨listed, nodup, m, hm, hcount⟩ :=
          ((depth_first (ν := Nat) [4]).2 g flooded).2 7 n hn
        exact ⟨f, g, n, rfl, hg, flooded, hn, hsize, listed, nodup, m, hm, hcount.trans hsize⟩

end LevelTree.Forest
