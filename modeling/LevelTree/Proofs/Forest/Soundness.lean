import LevelTree.Forest.Build
import LevelTree.Proofs.Assembly
import LevelTree.Proofs.Flood.Verdict

/-!
# Every node is a level component

Whatever the terrain, its holes and the last level are, and also where the flood fails in the end:
each node that was emitted has the positions of one component at its level, and its own ones are those
that lie level with it (`soundness`).
-/

namespace LevelTree.Forest

open Flood

variable {α : Type} {rank : Ranking α} {t : Terrain α} {u : State α} {l : Ledger Nat α}
  {f : Forest α} {b : Assembly Nat α} {settings : Settings α} {lastLevel : α} {d i : Nat}

/-- The node with an index is a component at its level, and the positions that belong to none of its
children are those that lie level with it. -/
structure IsLevelComponent (t : Terrain α) (rank : Ranking α) (f : Forest α) (i : Nat) (n : Node α)
    (members : List Position) : Prop where
  node : f.node i = .ok n
  positions : f.positions i = .ok members
  nodup : members.Nodup
  component : IsComponent (t.UpTo rank n.level) (· ∈ members)
  own_ne_nil : n.own ≠ []
  own : ∀ p, p ∈ n.own ↔ p ∈ members ∧ ∃ l, t.level? p = some l ∧ rank l n.level = .eq

/-! ## Replaying a flood -/

/-- The positions that a flood adds have as many coordinates as the terrain has sides. -/
theorem length_of_added (logged : Logged rank t u l) : ∀ p ∈ u.added, p.length = t.sides.length :=
  fun p hp => Extents.length_of_inside (logged.reachable p hp).readable.1

theorem length_held_lt (logged : Logged rank t u l) (fits : t.Fits) :
    l.held.length < Word.limit := by
  rw [(Ledger.held_perm logged.run).length_eq]
  exact Nat.lt_of_le_of_lt logged.few fits.volume

/-- A logged flood can be replayed into an empty forest with room for its nodes. -/
theorem exists_replay (logged : Logged rank t u l) (flood : t.Floodable) (fits : t.Fits)
    (room : l.complete.length ≤ nodeLimit) :
    ∃ b, (Assembly.ofForest (.empty t.sides)).replay u.log.toList = .ok b ∧
      Matches t.sides.length l b ∧ Linked b :=
  (matches_empty t.sides).replay (List.length_pos_of_ne_nil flood.nonempty) Ledger.nodup_empty
    logged.run (length_of_added logged) (length_held_lt logged fits) (linked_empty t.sides) room

/-- Without room for its nodes, the replay of a flood fails. -/
theorem replay_full (logged : Logged rank t u l) (flood : t.Floodable) (fits : t.Fits)
    (more : nodeLimit < l.complete.length) :
    (Assembly.ofForest (.empty t.sides)).replay u.log.toList = .error (.nodeLimit nodeLimit) :=
  (matches_empty t.sides).replay_full (List.length_pos_of_ne_nil flood.nonempty)
    Ledger.nodup_empty logged.run (length_of_added logged) (length_held_lt logged fits)
    (Nat.zero_le _) more

theorem countP_emit (logged : Logged rank t u l) :
    u.log.countP Event.isEmit = l.complete.length := by
  have hcount := Ledger.length_complete_run logged.run
  rw [← Array.countP_toList, hcount]
  exact (Nat.zero_add _).symm

/-- The regions that are complete were counted. -/
theorem emitted_eq (logged : Logged rank t u l) : u.tally.emitted = l.complete.length :=
  u.counts_of.emitted.trans (countP_emit logged)

/-- Every emission has positions of its own, so that there are no more of them than cells. -/
theorem length_complete_le (logged : Logged rank t u l) :
    l.complete.length ≤ Word.plainProduct t.sides := by
  have hrecent : l.complete.length ≤ (l.complete.flatMap fun h => h.fresh).length := by
    rw [List.length_flatMap, ← List.length_map (f := fun h => h.fresh.length)]
    refine List.length_le_sum_of_one_le _ fun n hn => ?_
    obtain ⟨h, hh, rfl⟩ := List.mem_map.1 hn
    exact List.length_pos_of_ne_nil (logged.complete h hh).recent
  have hfresh := (Ledger.fresh_perm logged.run).length_eq
  have hfew := logged.few
  rw [Ledger.fresh, List.length_append] at hfresh
  rw [State.added] at hfew
  omega

theorem emitted_le (logged : Logged rank t u l) : u.tally.emitted ≤ Word.plainProduct t.sides := by
  rw [emitted_eq logged]
  exact length_complete_le logged

/-- A forest grows by the replay of the log. -/
theorem grow_eq {outcome : Outcome α} (hrun : Flood.run t settings lastLevel = .ok outcome)
    (hreplay : (Assembly.ofForest f).replay outcome.log.toList = .ok b) :
    f.grow t settings lastLevel = .ok (b.forest, outcome.result) := by
  simp [grow, hrun, hreplay, bind, Except.bind, pure, Except.pure]

/-! ## Nodes -/

/-- A node that keeps a complete holding is a level component. -/
theorem isLevelComponent_of_keeps {h : Holding α} {n : Node α} (keeps : Keeps f i h n)
    (complete : Complete t rank h) : IsLevelComponent t rank f i n (f.listingAt i) where
  node := by rw [node, keeps.get]
  positions := positions_eq (get?_lt keeps.get)
  nodup := keeps.listing.nodup_iff.2 complete.nodup
  component := by
    have hmem : (· ∈ f.listingAt i) = (· ∈ h.held) := by
      funext p
      exact propext keeps.listing.mem_iff
    rw [hmem, keeps.level]
    exact complete.component
  own_ne_nil := by
    rw [keeps.own]
    exact complete.recent
  own := fun p => by
    rw [keeps.own, keeps.level, keeps.listing.mem_iff, complete.fresh]
    refine and_congr_right fun hp => ?_
    have hinside : Extents.Inside t.sides p := (complete.component.mem hp).1
    exact exists_congr fun a => and_congr_left fun _ => and_iff_right hinside

/-- Each node of a flooded terrain is a level component and has own positions. A flood that fails
leaves such nodes too. -/
theorem soundness (t : Terrain α) (fits : t.Fits) (settings : Settings α)
    (order : TotalPreorder settings.rank) (lastLevel : α) :
    ∃ outcome, Flood.run t settings lastLevel = .ok outcome ∧
      (outcome.log.countP Event.isEmit ≤ nodeLimit →
        ∃ f, (empty t.sides).grow t settings lastLevel = .ok (f, outcome.result) ∧
          f.size = outcome.log.countP Event.isEmit ∧
          ∀ i < f.size, ∃ n members, IsLevelComponent t settings.rank f i n members) := by
  by_cases flood : t.Floodable
  · obtain ⟨s, u, l, hstart, hrun, -, hends⟩ := exists_charted order flood fits lastLevel
    have logged : Logged settings.rank t u l := by
      rcases hends with ⟨-, -, finished⟩ | ⟨-, stranded⟩
      · exact finished.toLogged
      · exact stranded.toLogged
    have houtcome := run_eq hstart hrun
    refine ⟨_, houtcome, fun room => ?_⟩
    rw [countP_emit logged] at room ⊢
    obtain ⟨b, hreplay, hmatches, -⟩ := exists_replay logged flood fits room
    refine ⟨b.forest, grow_eq houtcome hreplay, hmatches.size, fun i hi => ?_⟩
    rw [hmatches.size] at hi
    obtain ⟨n, keeps⟩ := hmatches.nodes i _ (List.getElem?_eq_getElem hi)
    exact ⟨n, _, isLevelComponent_of_keeps keeps (logged.complete _ (List.getElem_mem hi))⟩
  · obtain ⟨failure, hfailure, -⟩ := exists_refused flood fits settings lastLevel
    refine ⟨_, hfailure, fun _ => ⟨empty t.sides, grow_eq hfailure rfl, rfl, fun i hi => ?_⟩⟩
    exact absurd hi (Nat.not_lt_zero i)

/-- A row of three cells with a ridge in its middle. -/
def ridge : Terrain Nat := ⟨[3], [0], fun p => if p = [1] then some 5 else if p = [2] then some 2 else some 1⟩

/-- The flood of the ridge fails when it meets a level above the last one, and leaves the first cell. -/
theorem soundness_ridge : ridge.Fits ∧ TotalPreorder (Ranking.ofKey Int.ofNat) ∧
    ∃ f, (empty [3]).grow ridge (.ofRanking (.ofKey Int.ofNat)) 3 = .ok (f, .error .aboveFloor) ∧
      f.size = 1 ∧ ∀ i < f.size, ∃ n members, IsLevelComponent ridge (.ofKey Int.ofNat) f i n members := by
  have fits : ridge.Fits := ⟨by decide, by decide⟩
  have heval : (Flood.run ridge (.ofRanking (.ofKey Int.ofNat)) 3).map
      (fun o => (o.result, o.log.countP Event.isEmit)) = .ok (.error .aboveFloor, 1) := by
    decide +kernel
  obtain ⟨outcome, hrun, hforest⟩ :=
    soundness ridge fits (.ofRanking (.ofKey Int.ofNat)) (.ofKey _) 3
  obtain ⟨hresult, hcount⟩ : outcome.result = .error .aboveFloor ∧
      outcome.log.countP Event.isEmit = 1 := by simpa [hrun, Except.map] using heval
  rw [hcount, hresult] at hforest
  exact ⟨fits, .ofKey _, hforest (by decide)⟩

end LevelTree.Forest
