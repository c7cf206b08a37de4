import LevelTree.Proofs.Flood.Protocol
import LevelTree.Proofs.Forest.Soundness

/-!
# Forests of any flood

Whatever the ranking is, the log of a flood can be booked, and adds no more positions than there are
cells (`recorded_of_run`). So it can be replayed, and a flood leaves a forest as long as there is room
for its nodes, also where it fails in the end (`exists_grow`).
-/

namespace LevelTree

open Flood

variable {α : Type} {rank : Ranking α} {t : Terrain α} {s u : State α} {settings : Settings α}
  {lastLevel : α} {outcome : Outcome α}

namespace Flood

/-- What can be said of the positions in the log of any flood. -/
structure Recorded (t : Terrain α) (log : Array (Event Nat α)) (l : Ledger Nat α) : Prop where
  run : Ledger.empty.run log.toList = some l
  reachable : ∀ p ∈ additions log.toList, t.Reachable p
  few : (additions log.toList).length ≤ Word.plainProduct t.sides

/-- A move that strands the flood adds no position. -/
theorem Moves.added_of_stranded (moves : Moves rank t s u) (stranded : u.phase = .stranded) :
    u.added = s.added := by
  cases moves with
  | look phase _ looks => cases looks <;> cases phase.symm.trans stranded
  | arrive => rcases phase_arrive_or (s := s) with phase | phase <;> cases phase.symm.trans stranded
  | stay => cases stranded
  | climb => exact added_settleAt
  | close =>
    unfold State.close at stranded ⊢
    split at stranded
    · cases stranded
    next hbasins =>
      rw [if_neg hbasins]
      exact added_settleAt

/-- A flood is accounted for as far as it goes. -/
theorem Accounted.moves (h : Accounted t s) (flood : t.Floodable) (fits : t.Fits)
    (moves : Relation.ReflTransGen (Moves rank t) s u) :
    (u.phase ≠ .stranded → Accounted t u) ∧ ∃ v, Accounted t v ∧ u.added = v.added := by
  induction moves with
  | refl => exact ⟨fun _ => h, s, h, rfl⟩
  | @tail v u _ hmove ih =>
    have hv : Accounted t v := ih.1 fun hstranded => by
      have hrunning := hmove.running
      simp [State.ended, hstranded] at hrunning
    have hnext := hv.move flood fits hmove
    refine ⟨hnext, ?_⟩
    by_cases hstranded : u.phase = .stranded
    · exact ⟨v, hv, hmove.added_of_stranded hstranded⟩
    · exact ⟨u, hnext hstranded, rfl⟩

theorem recorded_nil : Recorded t #[] Ledger.empty where
  run := rfl
  reachable := by simp [additions]
  few := Nat.zero_le _

/-- What a flood has added is accounted for, wherever it is looked at. -/
theorem Visits.exists_accounted (visits : Visits rank t lastLevel u) :
    ∃ v, Accounted t v ∧ u.added = v.added := by
  obtain ⟨s, starts, flood, hmoves⟩ := visits.cases
  rcases hmoves with rfl | ⟨fits, hmoves⟩
  · exact ⟨u, starts.accounted, rfl⟩
  · exact (starts.accounted.moves flood fits hmoves).2

/-- A flood adds no position twice. -/
theorem Visits.nodup_added (visits : Visits rank t lastLevel u) : u.added.Nodup := by
  obtain ⟨v, hv, hadded⟩ := visits.exists_accounted
  exact hadded ▸ hv.nodup_added

/-- What a flood logs can be booked, wherever it is looked at. -/
theorem Visits.recorded (visits : Visits rank t lastLevel u) : ∃ l, Recorded t u.log l := by
  obtain ⟨script, scripted⟩ := visits.scripted
  have traced : Script.Traced u.log.toList script := by
    simpa using Script.traced_nil.runs scripted.runs
  obtain ⟨l, hl, -⟩ := traced.booked
  obtain ⟨v, hv, hadded⟩ := visits.exists_accounted
  have hlog : additions u.log.toList = v.added := hadded
  exact ⟨l, hl, fun p hp => hv.reachable_added (hlog ▸ hp), hlog ▸ hv.length_added_le⟩

theorem recorded_of_run (hrun : Flood.run t settings lastLevel = .ok outcome) :
    ∃ l, Recorded t outcome.log l := by
  rcases visits_of_run hrun with hlog | ⟨u, visits, -, hlog⟩
  · exact ⟨_, hlog ▸ recorded_nil⟩
  · exact hlog ▸ visits.recorded

/-- Under any ranking, a flood of a terrain whose cells and neighbours can be counted answers. -/
theorem exists_outcome (fits : t.Fits) (settings : Settings α) (lastLevel : α) :
    ∃ outcome, Flood.run t settings lastLevel = .ok outcome := by
  by_cases flood : t.Floodable
  · obtain ⟨s, u, hstart, -, hrun, -⟩ := exists_run flood fits settings.rank lastLevel
    exact ⟨_, run_eq hstart hrun⟩
  · obtain ⟨failure, hrun, -⟩ := exists_refused flood fits settings lastLevel
    exact ⟨_, hrun⟩

end Flood

namespace Forest

/-- What is recorded can be replayed into an empty forest with room for its nodes. -/
theorem exists_replay_recorded {log : Array (Event Nat α)} {l : Ledger Nat α}
    (recorded : Recorded t log l) (flood : t.Floodable) (fits : t.Fits)
    (room : log.countP Event.isEmit ≤ nodeLimit) :
    ∃ b, (Assembly.ofForest (.empty t.sides)).replay log.toList = .ok b ∧
      Matches t.sides.length l b ∧ Linked b ∧ b.forest.size = log.countP Event.isEmit := by
  have hcount : l.complete.length = log.countP Event.isEmit := by
    have hcomplete := Ledger.length_complete_run recorded.run
    rw [← Array.countP_toList, hcomplete]
    exact Nat.zero_add _
  have few : l.held.length < Word.limit := by
    rw [(Ledger.held_perm recorded.run).length_eq]
    exact Nat.lt_of_le_of_lt recorded.few fits.volume
  have lengths : ∀ p ∈ additions log.toList, p.length = t.sides.length := fun p hp =>
    Extents.length_of_inside (recorded.reachable p hp).readable.1
  obtain ⟨b, hreplay, hmatches, linked⟩ := (matches_empty t.sides).replay
    (List.length_pos_of_ne_nil flood.nonempty) Ledger.nodup_empty recorded.run lengths few
    (linked_empty t.sides) (hcount ▸ room)
  exact ⟨b, hreplay, hmatches, linked, hmatches.size.trans hcount⟩

/-- What a flood that answers has logged can be replayed into an empty forest with room for it. -/
theorem exists_replay_of_run (hrun : Flood.run t settings lastLevel = .ok outcome)
    (room : outcome.log.countP Event.isEmit ≤ nodeLimit) :
    ∃ b, (Assembly.ofForest (.empty t.sides)).replay outcome.log.toList = .ok b ∧
      b.forest.size = outcome.log.countP Event.isEmit := by
  rcases visits_of_run hrun with hlog | ⟨u, visits, ended, -⟩
  · rw [hlog]
    exact ⟨_, rfl, by simp [Assembly.ofForest, empty, size]⟩
  · obtain ⟨flood, fits⟩ := visits.fits ended
    obtain ⟨l, recorded⟩ := recorded_of_run hrun
    obtain ⟨b, hreplay, -, -, hsize⟩ := exists_replay_recorded recorded flood fits room
    exact ⟨b, hreplay, hsize⟩

/-- What a flood leaves in a forest is the replay of its log. -/
theorem exists_replay_of_grow {f g : Forest α} {result : Except Failure Tally}
    (hgrow : f.grow t settings lastLevel = .ok (g, result)) :
    ∃ outcome a, Flood.run t settings lastLevel = .ok outcome ∧
      (Assembly.ofForest f).replay outcome.log.toList = .ok a ∧ a.forest = g := by
  simp only [grow, bind, Except.bind] at hgrow
  split at hgrow
  · cases hgrow
  next outcome hrun =>
  split at hgrow
  · cases hgrow
  next a hreplay =>
  cases hgrow
  exact ⟨outcome, a, hrun, hreplay, rfl⟩

/-- Under any ranking, a flood leaves a forest with a node for each of its emissions, if there is room
for them. -/
theorem exists_grow (fits : t.Fits) (settings : Settings α) (lastLevel : α) :
    ∃ outcome, Flood.run t settings lastLevel = .ok outcome ∧
      (outcome.log.countP Event.isEmit ≤ nodeLimit →
        ∃ f, (empty t.sides).grow t settings lastLevel = .ok (f, outcome.result) ∧
          f.size = outcome.log.countP Event.isEmit) := by
  obtain ⟨outcome, hrun⟩ := exists_outcome fits settings lastLevel
  refine ⟨outcome, hrun, fun room => ?_⟩
  obtain ⟨b, hreplay, hsize⟩ := exists_replay_of_run hrun room
  exact ⟨b.forest, grow_eq hrun hreplay, hsize⟩

end Forest

end LevelTree
