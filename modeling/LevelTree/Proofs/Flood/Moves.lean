import LevelTree.Flood.Run
import LevelTree.Proofs.Connectivity
import LevelTree.Proofs.Frontier
import LevelTree.Proofs.Ledger
import LevelTree.Proofs.Mask

/-!
# The moves of a flood

A flood as a transition system. A survey is taken apart into its single looks at a neighbour, and a
rise into the two cases of the level it enters, so that an invariant has to be shown for a few small
moves only.
-/

namespace LevelTree.Flood

variable {α : Type} {rank : Ranking α} {t : Terrain α} {s u : State α} {p q : Position} {l : α}

namespace State

/-- The positions added so far. -/
def added (s : State α) : List Position := additions s.log.toList

/-- The positions that were seen and not added: the one that is surveyed and those that wait. -/
def awaited (s : State α) : List Position :=
  (if s.phase = .survey then [s.position] else []) ++ s.frontier.waiting.map (·.position)

theorem awaited_of_survey (phase : s.phase = .survey) :
    s.awaited = s.position :: s.frontier.waiting.map (·.position) := by
  simp [awaited, phase]

theorem awaited_of_ne (phase : s.phase ≠ .survey) :
    s.awaited = s.frontier.waiting.map (·.position) := by
  simp [awaited, phase]

/-- The state with its walk past the next neighbour. -/
def pass (s : State α) : State α := { s with walk := s.walk.seek (s.walk.cursor + 1) }

/-- The state after a neighbour was marked and a record pushed. -/
def see (s : State α) (visited : Mask) (frontier : Frontier α) : State α :=
  { s.pass with visited, frontier, peak := max s.peak frontier.size }

/-- The state after the flood went down to a neighbour, with a basin for it. -/
def sink (s : State α) (visited : Mask) (frontier : Frontier α) (q : Position) (l : α) : State α :=
  { (s.see visited frontier).tell (.create s.nextName l) with
    level := l
    position := q
    basins := ⟨s.nextName, l⟩ :: s.basins
    nextName := s.nextName + 1
    walk := s.walk.seek 0 }

/-- The state at a record that was popped, before its level is compared. -/
def enter (s : State α) (slot : Nat) (r : Record α) (rest : Frontier α) : State α :=
  { s with
    frontier := rest.release slot
    position := r.position
    level := r.level
    walk := s.walk.seek r.cursor
    phase := .survey }

@[simp] theorem log_sink (s : State α) (visited : Mask) (frontier : Frontier α) (q : Position)
    (l : α) : (s.sink visited frontier q l).log = s.log.push (.create s.nextName l) := rfl

end State

/-- The walk has come to the unseen position `q` of level `l`. -/
structure Found (t : Terrain α) (s : State α) (q : Position) (l : α) : Prop where
  neighbor : Walk.neighbor t.sides s.walk.cursor s.position = .ok ⟨true, q⟩
  inside : Extents.Inside t.sides q
  adjacent : Adjacent s.position q
  level : t.level? q = some l
  unseen : ¬ s.visited.Marks q

/-- A position that waits is awaited. -/
theorem awaited_see {visited : Mask} {frontier : Frontier α} (intact : s.frontier.Intact [])
    (pushed : s.frontier.push rank ⟨q, l, 0⟩ = .ok frontier) (phase : s.phase = .survey) :
    (s.see visited frontier).awaited.Perm (q :: s.awaited) := by
  have hphase : (s.see visited frontier).phase = .survey := phase
  have hperm := ((Frontier.spec_of_push intact pushed).2.map (·.position)).cons s.position
  rw [State.awaited_of_survey hphase, State.awaited_of_survey phase]
  exact hperm.trans (.swap ..)

/-- Where the flood goes down, the new position is awaited next to the old one. -/
theorem awaited_sink {visited : Mask} {frontier : Frontier α} {a : α} {k : Nat}
    (intact : s.frontier.Intact []) (pushed : s.frontier.push rank ⟨s.position, l, k⟩ = .ok frontier)
    (phase : s.phase = .survey) : (s.sink visited frontier q a).awaited.Perm (q :: s.awaited) := by
  have hphase : (s.sink visited frontier q a).phase = .survey := phase
  have hperm := ((Frontier.spec_of_push intact pushed).2.map (·.position)).cons q
  rw [State.awaited_of_survey hphase, State.awaited_of_survey phase]
  exact hperm

/-- The position that is entered is awaited still. -/
theorem awaited_enter {slot : Nat} {r : Record α} {rest : Frontier α}
    (intact : s.frontier.Intact []) (phase : s.phase = .rise)
    (popped : s.frontier.pop rank = some (slot, r, rest)) :
    (s.enter slot r rest).awaited.Perm s.awaited := by
  have hperm := (Frontier.pop_spec intact popped).2.1.map (·.position)
  rw [State.awaited_of_survey rfl, State.awaited_of_ne (by simp [phase])]
  exact hperm.symm

/-- The readable ones among the first `k` neighbours of `p` are marked. -/
def Examined (t : Terrain α) (m : Mask) (p : Position) (k : Nat) : Prop :=
  ∀ j < k, ∀ q, Walk.neighbor t.sides j p = .ok ⟨true, q⟩ → t.Readable q → m.Marks q

/-- The looks that a survey takes at a neighbour. -/
inductive Looks (rank : Ranking α) (t : Terrain α) (s : State α) : State α → Prop
  /-- The neighbour is outside, a hole, or was seen. -/
  | skip (examined : Examined t s.visited s.position (s.walk.cursor + 1)) : Looks rank t s s.pass
  /-- The neighbour is not lower, and waits. -/
  | wait {q l visited frontier} (found : Found t s q l) (marked : s.visited.Adds visited q)
      (pushed : s.frontier.push rank ⟨q, l, 0⟩ = .ok frontier) (high : rank l s.level ≠ .lt) :
      Looks rank t s (s.see visited frontier)
  /-- The neighbour is lower, and the position waits for it. -/
  | descend {q l visited frontier} (found : Found t s q l) (marked : s.visited.Adds visited q)
      (pushed : s.frontier.push rank ⟨s.position, s.level, s.walk.cursor + 1⟩ = .ok frontier)
      (low : rank l s.level = .lt) : Looks rank t s (s.sink visited frontier q l)

/-- The moves of a flood. -/
inductive Moves (rank : Ranking α) (t : Terrain α) (s : State α) : State α → Prop
  | look {v} (phase : s.phase = .survey) (left : s.walk.hasNext = true) (looks : Looks rank t s v) :
      Moves rank t s v
  | arrive (phase : s.phase = .survey) (done : s.walk.hasNext = false) : Moves rank t s s.arrive
  /-- The first waiting position is at the level of the flood. -/
  | stay {slot r rest} (phase : s.phase = .rise)
      (popped : s.frontier.pop rank = some (slot, r, rest)) (same : rank r.level s.level = .eq) :
      Moves rank t s (s.enter slot r rest)
  /-- The first waiting position is at another level. -/
  | climb {slot r rest} (phase : s.phase = .rise)
      (popped : s.frontier.pop rank = some (slot, r, rest)) (other : rank r.level s.level ≠ .eq) :
      Moves rank t s ((s.enter slot r rest).settleAt rank r.level)
  | close (phase : s.phase = .close) : Moves rank t s (s.close rank)

end LevelTree.Flood
