import LevelTree.Proofs.Flood.Coverage
import LevelTree.Proofs.Flood.Layers
import LevelTree.Proofs.Flood.Visits
import LevelTree.Proofs.Frontier.Pool

/-!
# The balance between two ticks

Wherever a flood is between two ticks, the positions that were added, those that wait, and the one that is
to be surveyed next are what was seen, and each cursor tells how far its position was looked around. The
pool of the frontier has as many slots as ever waited at one time (`Kept.move`), so that its size is the
peak of the flood. None of this asks a law of the ranking (`accounting`).
-/

namespace LevelTree.Flood

variable {α : Type} {rank : Ranking α} {t : Terrain α} {s u : State α} {lastLevel : α} {p : Position}
  {k : Nat}

/-- Around an added position all neighbours were looked at. -/
theorem Accounted.examined_added (h : Accounted t s) (hp : p ∈ s.added) :
    Examined t s.visited p k :=
  fun _ _ q hq hread => h.tallied.surrounded p hp q hread (Walk.adjacent_of_neighbor hq)

theorem added_close : (s.close rank).added = s.added := by
  unfold State.close
  split
  · exact added_tell_emit
  · exact added_settleAt

/-! ## What every move keeps -/

/-- The flood is accounted for, its pool is as large as its peak, and past the survey of a position the
position is added. -/
structure Kept (t : Terrain α) (s : State α) : Prop where
  accounted : Accounted t s
  capacity : s.frontier.capacity = s.peak
  position : s.phase ≠ .survey → s.position ∈ s.added

theorem Starts.kept (starts : Starts t lastLevel s) (hpeak : s.peak = 0) : Kept t s where
  accounted := starts.accounted
  capacity := by rw [starts.frontier, hpeak]; rfl
  position := fun hphase => absurd starts.phase hphase

theorem Kept.capacity_look (h : Kept t s) (looks : Looks rank t s u) :
    u.frontier.capacity = u.peak := by
  cases looks with
  | skip => exact h.capacity
  | wait found marked pushed high =>
    exact (Frontier.capacity_push h.accounted.intact pushed).trans (congrArg (max · _) h.capacity)
  | descend found marked pushed low =>
    exact (Frontier.capacity_push h.accounted.intact pushed).trans (congrArg (max · _) h.capacity)

/-- A slot that is released stays in the pool. -/
theorem Kept.capacity_enter (h : Kept t s) {slot : Nat} {r : Record α} {rest : Frontier α}
    (popped : s.frontier.pop rank = some (slot, r, rest)) :
    (s.enter slot r rest).frontier.capacity = (s.enter slot r rest).peak := by
  have hpool : rest.pool = s.frontier.pool := (Frontier.pop_spec h.accounted.intact popped).2.2.1
  exact (congrArg Array.size hpool).trans h.capacity

theorem Kept.capacity_close (h : Kept t s) :
    (s.close rank).frontier.capacity = (s.close rank).peak := by
  unfold State.close
  split <;> exact h.capacity

/-- Every move keeps the books unless it strands the flood. -/
theorem Kept.move (h : Kept t s) (flood : t.Floodable) (fits : t.Fits) (moves : Moves rank t s u)
    (running : u.phase ≠ .stranded) : Kept t u := by
  have accounted := h.accounted.move flood fits moves running
  cases moves with
  | look phase _ looks =>
    have hphase := (h.accounted.look phase looks).2
    exact ⟨accounted, h.capacity_look looks, fun hne => absurd hphase hne⟩
  | arrive =>
    refine ⟨accounted, h.capacity, fun _ => ?_⟩
    rw [added_arrive]
    exact List.mem_append_right _ (List.mem_singleton_self _)
  | stay _ popped =>
    exact ⟨accounted, h.capacity_enter popped, fun hne => absurd rfl hne⟩
  | climb _ popped =>
    have hphase := phase_settleAt_of_running running
    exact ⟨accounted, h.capacity_enter popped, fun hne => absurd hphase hne⟩
  | close phase =>
    refine ⟨accounted, h.capacity_close, fun _ => ?_⟩
    have hposition : (s.close rank).position = s.position := by
      unfold State.close
      split <;> rfl
    rw [added_close, hposition]
    exact h.position (by simp [phase])

theorem Kept.moves (h : Kept t s) (flood : t.Floodable) (fits : t.Fits)
    (moves : Relation.ReflTransGen (Moves rank t) s u) (running : u.phase ≠ .stranded) : Kept t u := by
  induction moves with
  | refl => exact h
  | @tail v w _ hmove ih =>
    -- a stranded flood makes no further move
    have hv : v.phase ≠ .stranded := by
      intro hstranded
      have hrunning := hmove.running
      simp [State.ended, hstranded] at hrunning
    exact (ih hv).move flood fits hmove running

/-- The books are kept in every state that a flood comes to, up to one in which it is stranded. -/
theorem Visits.kept (visits : Visits rank t lastLevel s) (running : s.phase ≠ .stranded) : Kept t s := by
  obtain ⟨s₀, hstart, ticks⟩ := visits
  obtain ⟨flood, volume, hwalk, hpeak⟩ := floodable_of_start hstart
  have starts := starts_of_start hstart
  have hs₀ := starts.kept hpeak
  rcases ticks.cases_head with rfl | ⟨u, ⟨-, htick⟩, -⟩
  · exact hs₀
  · have fits := fits_of_tick starts volume hwalk htick
    exact hs₀.moves flood fits (moves_of_ticks flood fits starts.accounted ticks).1 running

/-! ## The balance -/

/-- What can be read off a flood between two ticks. -/
structure Balanced (t : Terrain α) (s : State α) : Prop where
  /-- The added positions, the waiting ones and, before a survey, the current one are all different. -/
  nodup : (s.added ++ s.awaited).Nodup
  visited : ∀ p, s.visited.Marks p ↔ p ∈ s.added ++ s.awaited
  countSet : s.visited.countSet =
    s.tally.added + s.frontier.size + if s.phase = .survey then 1 else 0
  levels : ∀ r ∈ s.frontier.waiting, t.level? r.position = some r.level
  surrounded : ∀ p ∈ s.added, ∀ q, t.Readable q → Adjacent p q → s.visited.Marks q
  /-- The neighbours before a cursor were seen. -/
  resumable : ∀ r ∈ s.frontier.waiting, Examined t s.visited r.position r.cursor
  current : Examined t s.visited s.position s.walk.cursor
  slots : (s.frontier.heap.toList ++ s.frontier.free).Perm (List.range s.frontier.capacity)
  used : s.frontier.free.length + s.frontier.size = s.frontier.capacity
  peak : s.frontier.capacity = s.peak

theorem length_awaited :
    s.awaited.length = s.frontier.size + if s.phase = .survey then 1 else 0 := by
  by_cases phase : s.phase = .survey
  · rw [State.awaited_of_survey phase, if_pos phase, List.length_cons, List.length_map,
      Frontier.length_waiting]
  · rw [State.awaited_of_ne phase, if_neg phase, List.length_map, Frontier.length_waiting]
    rfl

/-- What is not unset is added or awaited. -/
theorem Accounted.countSet_eq (h : Accounted t s) :
    s.visited.countSet = s.added.length + s.awaited.length := by
  have hbits := Mask.countSet_add_countUnset (m := s.visited)
  have hcount := h.tallied.count
  rw [← h.full, List.length_append] at hcount
  omega

theorem Kept.balanced (h : Kept t s) : Balanced t s where
  nodup := h.accounted.tallied.nodup
  visited := fun p => by rw [h.accounted.tallied.marks, List.mem_append]
  countSet := by rw [h.accounted.countSet_eq, length_awaited, tally_added, Nat.add_assoc]
  levels := h.accounted.levels
  surrounded := h.accounted.tallied.surrounded
  resumable := h.accounted.resumable
  current := by
    by_cases phase : s.phase = .survey
    · exact h.accounted.current phase
    · exact h.accounted.examined_added (h.position phase)
  slots := by
    have hslots := h.accounted.intact
    rwa [Frontier.Intact, List.append_nil] at hslots
  used := by
    have hcapacity := h.accounted.intact.capacity_eq
    rw [List.length_nil] at hcapacity
    omega
  peak := h.capacity

/-- Under any ranking, the account of what a flood has seen is in balance between any two ticks: the added
positions, the waiting ones and the one to be surveyed are different and are what is marked, the cursors
tell what was looked at, and the slots of the frontier are as many as the peak. -/
theorem accounting (t : Terrain α) (lastLevel : α) (visits : Visits rank t lastLevel s)
    (running : s.phase ≠ .stranded) : Balanced t s := (visits.kept running).balanced

/-- Three cells at one level. -/
def flat : Terrain Nat := ⟨[3], [0], fun _ => some 0⟩

/-- The answer "before" to every question is no order. It leads the flood of three cells to the last of
them at once, and then back to the second one, all of whose neighbours were seen; the first cell waits. -/
theorem accounting_flat : ∃ s, Visits (Ranking.always .lt) flat 0 s ∧ s.phase = .survey ∧
    s.added = [[2]] ∧ s.position = [1] ∧ s.walk.cursor = 2 ∧ s.frontier.waiting = [⟨[0], 0, 2⟩] ∧
    s.frontier.capacity = 2 ∧ Balanced flat s := by
  have heval : (match State.start flat 0 with
      | .error _ => false
      | .ok s => match s.tick (Ranking.always .lt) flat with
        | .error _ => false
        | .ok u => match u.tick (Ranking.always .lt) flat with
          | .error _ => false
          | .ok v => decide (s.ended = false ∧ u.ended = false ∧ v.phase = .survey ∧ v.added = [[2]] ∧
              v.position = [1] ∧ v.walk.cursor = 2 ∧ v.frontier.waiting = [⟨[0], 0, 2⟩] ∧
              v.frontier.capacity = 2)) = true := by decide +kernel
  split at heval
  · cases heval
  next s hstart =>
  split at heval
  · cases heval
  next u hu =>
  split at heval
  · cases heval
  next v hv =>
  obtain ⟨hs, hgoing, hsurvey, hadded, hposition, hcursor, hwaiting, hcapacity⟩ :=
    of_decide_eq_true heval
  have visits : Visits (Ranking.always .lt) flat 0 v :=
    ⟨s, hstart, .tail (.single ⟨hs, hu⟩) ⟨hgoing, hv⟩⟩
  have running : v.phase ≠ .stranded := by simp [hsurvey]
  exact ⟨v, visits, hsurvey, hadded, hposition, hcursor, hwaiting, hcapacity,
    accounting flat 0 visits running⟩

end LevelTree.Flood
