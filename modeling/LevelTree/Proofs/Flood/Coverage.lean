import LevelTree.Proofs.Flood.Run
import Mathlib.Data.Set.Card

/-!
# What a flood covers

A flood that is not stranded adds every position that can be reached from the zero position, once,
and no other (`coverage`). No law is asked of the ranking: with any function in its place the heap
and the stack lose their meaning, and the account of the seen positions stays.
-/

namespace LevelTree

open Relation

namespace Flood

variable {α : Type} {rank : Ranking α} {t : Terrain α} {s u : State α} {p : Position}

/-- When all is done, nothing is awaited. -/
theorem Accounted.awaited_eq_nil (h : Accounted t u) (phase : u.phase = .finished) :
    u.awaited = [] := by
  have hwaiting := h.waits
  rw [phase] at hwaiting
  change u.frontier.waiting = [] at hwaiting
  simp [State.awaited, phase, hwaiting]

/-- The marked positions are closed under readable neighbours, once all of them are added. -/
theorem Accounted.marks_iff_reachable (h : Accounted t u) (phase : u.phase = .finished) :
    u.visited.Marks p ↔ t.Reachable p := by
  constructor
  · exact h.tallied.reachable p
  · rintro ⟨-, hjoined⟩
    induction hjoined with
    | refl => exact h.origin
    | tail _ hstep ih =>
      rcases (h.tallied.marks _).1 ih with hadded | hawaited
      · exact h.tallied.surrounded _ hadded _ hstep.2.1 hstep.2.2
      · simp [h.awaited_eq_nil phase] at hawaited

theorem Accounted.mem_added_iff (h : Accounted t u) (phase : u.phase = .finished) :
    p ∈ u.added ↔ t.Reachable p := by
  rw [← h.marks_iff_reachable phase, h.tallied.marks, h.awaited_eq_nil phase]
  simp

theorem Accounted.nodup_added (h : Accounted t u) : u.added.Nodup :=
  (List.nodup_append.1 h.tallied.nodup).1

/-- The reachable positions are as many as those that were added. -/
theorem Accounted.ncard_reachable (h : Accounted t u) (phase : u.phase = .finished) :
    {p | t.Reachable p}.ncard = u.added.length := by
  have hset : {p | t.Reachable p} = (u.added.toFinset : Set Position) := by
    ext p
    simp [h.mem_added_iff phase]
  rw [hset, Set.ncard_coe_finset, List.toFinset_card_of_nodup h.nodup_added]

/-- The clear bits that are left stand for the positions that cannot be reached. -/
theorem Accounted.countUnset_eq (h : Accounted t u) (phase : u.phase = .finished) :
    u.visited.countUnset + {p | t.Reachable p}.ncard = Word.plainProduct t.sides := by
  rw [h.ncard_reachable phase, ← h.sides, ← Extents.volume_eq_plainProduct, ← h.tallied.count,
    h.awaited_eq_nil phase, List.append_nil]

/-- The tally counts the positions that were added. -/
theorem tally_added : u.tally.added = u.added.length := by
  have hcount : ∀ events : List (Event Nat α),
      events.countP Event.isAdd = (additions events).length := by
    intro events
    rw [additions, List.length_filterMap_eq_countP]
    congr 1
    funext e
    cases e <;> rfl
  exact u.counts_of.added.trans (Array.countP_toList.symm.trans (hcount u.log.toList))

/-- A flood that was run from its start answers with its last state. -/
theorem run_eq {settings : Settings α} {lastLevel : α} (hstart : State.start t lastLevel = .ok s)
    (hrun : s.run settings.rank t = .ok u) :
    Flood.run t settings lastLevel = .ok ⟨u.log, u.result settings.validate⟩ := by
  rw [Flood.run, hstart]
  simp [hrun, bind, Except.bind, pure, Except.pure]

/-- What an ended flood answers: it is stranded, or it is finished and counts its clear bits. -/
theorem result_of_ended (ended : u.ended = true) (validate : Bool) :
    u.phase = .stranded ∧ u.result validate = .error .aboveFloor ∨
      u.phase = .finished ∧ u.result validate =
        if validate ∧ 0 < u.visited.countUnset then .error (.unreached u.visited.countUnset)
        else .ok u.tally := by
  simp only [State.ended, Bool.or_eq_true, beq_iff_eq] at ended
  rcases ended with hphase | hphase
  · exact .inr ⟨hphase, by simp [State.result, hphase]⟩
  · exact .inl ⟨hphase, by simp [State.result, hphase]⟩

/-- What is seen, added and answered when a flood has covered its terrain. -/
structure Covered (t : Terrain α) (validate : Bool) (u : State α) : Prop where
  /-- No position is added twice. -/
  nodup : (additions u.log.toList).Nodup
  added : ∀ p, p ∈ additions u.log.toList ↔ t.Reachable p
  visited : ∀ p, u.visited.get p = .ok true ↔ t.Reachable p
  tally : u.tally.added = {p | t.Reachable p}.ncard
  /-- The positions that cannot be reached are missing, and reported if that was asked for. -/
  answer : ∃ missing, missing + {p | t.Reachable p}.ncard = Word.plainProduct t.sides ∧
    u.result validate =
      if validate ∧ 0 < missing then .error (.unreached missing) else .ok u.tally

theorem Accounted.covered (h : Accounted t u) (phase : u.phase = .finished) {validate : Bool}
    (answer : u.result validate =
      if validate ∧ 0 < u.visited.countUnset then .error (.unreached u.visited.countUnset)
      else .ok u.tally) : Covered t validate u where
  nodup := h.nodup_added
  added := fun _ => h.mem_added_iff phase
  visited := fun _ => by rw [Mask.get_eq_true_iff, h.marks_iff_reachable phase]
  tally := by rw [tally_added, h.ncard_reachable phase]
  answer := ⟨_, h.countUnset_eq phase, answer⟩

/-- A row of five cells: a slope down to the second one, a third one above them, and a hole that hides
the last one. -/
def parted : Terrain Nat where
  sides := [5]
  corner := [0]
  level? := fun
    | [0] => some 2
    | [1] => some 1
    | [2] => some 3
    | [4] => some 0
    | _ => none

theorem floodable_parted : parted.Floodable ∧ parted.Fits :=
  ⟨⟨by decide, by decide, by decide, by decide⟩, by decide, by decide⟩

end Flood

end LevelTree
