import LevelTree.Flood.State

/-!
# The steps of a flood

A survey looks at the neighbours of the position in turn. A lower neighbour is entered at once, in
a basin of its own, and the position goes to the frontier; any other neighbour goes there itself.
A survey ends at a position without lower unseen neighbours, which joins the topmost region. Then
the flood rises to the first position of the frontier, and the basins below its level are settled.
The main statements, `survey_marks` and `tick_lt`, say that each step uses up unseen positions,
waiting ones or phases, so that a flood ends whatever the ranking is.
-/

namespace LevelTree.Flood

variable {α : Type}

/-- What settling the stack at a level does to it. -/
structure Settlement (α : Type) where
  events : List (Event Nat α)
  basins : List (Basin α)
  /-- The level lies above the floor, so that no region is left to be raised to it. -/
  stranded : Bool

/-- Emits basins from the top until the topmost region is at `level`: a basin is raised to the
level if the region beneath is above it, and merged into that region otherwise. The level of the
region beneath is read off the stack, where it is the one last given to that region. -/
def settle (rank : Ranking α) (floor level : α) : List (Basin α) → Settlement α
  | [] => ⟨[], [], true⟩
  | b :: rest =>
    let below := rest.headD ⟨0, floor⟩
    match rank level below.level with
    | .lt => ⟨[.emit b.name, .raise b.name level], ⟨b.name, level⟩ :: rest, false⟩
    | .eq => ⟨[.emit b.name, .merge below.name b.name], rest, false⟩
    | .gt =>
      let s := settle rank floor level rest
      { s with events := .emit b.name :: .merge below.name b.name :: s.events }

namespace State

variable (rank : Ranking α) (terrain : Terrain α)

/-- Marks an unseen neighbour, and enters it if it is lower than the position. -/
def discover (s : State α) (p : Position) (i : Nat) (level : α) : Except Fault (State α) := do
  let visited ← s.visited.setBit i true
  if rank level s.level ≠ .lt then
    let frontier ← s.frontier.push rank ⟨p, level, 0⟩
    return { s with visited, frontier, peak := max s.peak frontier.size }
  else
    let frontier ← s.frontier.push rank ⟨s.position, s.level, s.walk.cursor⟩
    return { s.tell (.create s.nextName level) with
      visited, frontier, level
      peak := max s.peak frontier.size
      position := p
      basins := ⟨s.nextName, level⟩ :: s.basins
      nextName := s.nextName + 1
      walk := s.walk.seek 0 }

/-- Looks at the next neighbour of the position. -/
def examine (s : State α) : Except Fault (State α) := do
  let (n, walk) ← s.walk.next s.position
  let s := { s with walk }
  if n.inside then
    match ← s.unseen? terrain n.position with
    | some (i, level) => s.discover rank n.position i level
    | none => return s
  else return s

/-- Adds the position to the topmost region. -/
def arrive (s : State α) : State α :=
  { s.tell (.add s.top.name s.position) with
    phase := if s.frontier.isEmpty then .close else .rise }

@[simp] theorem log_arrive (s : State α) :
    s.arrive.log = s.log.push (.add s.top.name s.position) := rfl

/-- A discovery takes a position from the unseen ones to the frontier. -/
theorem discover_marks {rank : Ranking α} {s t : State α} {p : Position} {i : Nat} {level : α}
    (h : s.discover rank p i level = .ok t) (clear : s.visited.bit i = false) :
    t.visited.countUnset + 1 = s.visited.countUnset ∧
      t.frontier.size = s.frontier.size + 1 ∧ t.walk.bound = s.walk.bound := by
  simp only [discover, bind, Except.bind] at h
  split at h
  · simp at h
  next hset =>
    have := Mask.unset_setBit hset clear
    split at h <;> split at h <;> simp only [pure, Except.pure, reduceCtorEq, Except.ok.injEq] at h
    all_goals
      next hpush =>
        subst h
        exact ⟨this, Frontier.size_push hpush, rfl⟩

theorem bit_of_unseen {s : State α} {terrain : Terrain α} {p : Position} {i : Nat} {level : α}
    (h : s.unseen? terrain p = .ok (some (i, level))) : s.visited.bit i = false := by
  simp only [unseen?, Extents.indexByGrowth_eq, bind, Except.bind, pure, Except.pure] at h
  split at h
  · simp at h
  · split at h
    · simp at h
    next hbit =>
      obtain ⟨_, _, heq⟩ := Option.map_eq_some_iff.1 (Except.ok.inj h)
      cases heq
      simpa using hbit

/-- Looking at a neighbour moves the cursor on, or takes an unseen position to the frontier. -/
theorem examine_marks {rank : Ranking α} {terrain : Terrain α} {s t : State α}
    (h : s.examine rank terrain = .ok t) :
    t.walk.bound = s.walk.bound ∧
      (t.visited.countUnset = s.visited.countUnset ∧ t.frontier.size = s.frontier.size ∧
          t.walk.cursor = s.walk.cursor + 1 ∨
        t.visited.countUnset + 1 = s.visited.countUnset ∧
          t.frontier.size = s.frontier.size + 1) := by
  simp only [examine, bind, Except.bind] at h
  split at h
  · simp at h
  next v hnext =>
    have hcursor := Walk.cursor_next hnext
    have hbound := Walk.bound_next hnext
    split at h
    · split at h
      · simp at h
      next found hunseen =>
        cases found with
        | none => cases h; exact ⟨hbound, .inl ⟨rfl, rfl, hcursor⟩⟩
        | some found =>
          have := discover_marks h (bit_of_unseen hunseen)
          exact ⟨this.2.2.trans hbound, .inr ⟨this.1, this.2.1⟩⟩
    · cases h; exact ⟨hbound, .inl ⟨rfl, rfl, hcursor⟩⟩

/-- Looks at the neighbours that are left, here and wherever the flood enters a lower position,
and adds the position where none is left. -/
def survey (s : State α) : Except Fault (State α) :=
  if s.walk.hasNext then
    match _h : s.examine rank terrain with
    | .error fault => .error fault
    | .ok t => t.survey
  else .ok s.arrive
termination_by s.visited.countUnset * (s.walk.bound + 1) + (s.walk.bound - s.walk.cursor)
decreasing_by
  have hlt : s.walk.cursor < s.walk.bound := by simpa [Walk.hasNext] using ‹s.walk.hasNext = true›
  obtain ⟨hbound, h | h⟩ := examine_marks ‹s.examine rank terrain = .ok t›
  · rw [hbound, h.1]; omega
  · rw [hbound, ← h.1, Nat.add_mul]; omega

/-- The state after its stack was settled at a level. -/
def settleAt (s : State α) (level : α) : State α :=
  let settlement := settle rank s.floor level s.basins
  { s.tellAll settlement.events with
    basins := settlement.basins
    phase := if settlement.stranded then .stranded else s.phase }

@[simp] theorem log_settleAt (s : State α) (level : α) : (s.settleAt rank level).log =
    s.log ++ (settle rank s.floor level s.basins).events := rfl

/-- Enters the first position of the frontier, and settles the stack if that is at another level. -/
def rise (s : State α) : State α :=
  match s.frontier.pop rank with
  | none => { s with phase := .close }
  | some (slot, r, rest) =>
    let t := { s with
      frontier := rest.release slot
      position := r.position
      level := r.level
      walk := s.walk.seek r.cursor
      phase := .survey }
    if rank r.level s.level = .eq then t else t.settleAt rank r.level

/-- Emits the floor if the flood has reached it, and otherwise settles the stack at the level of
the flood. -/
def close (s : State α) : State α :=
  let t := { s with phase := .finished }
  if s.basins.isEmpty then t.tell (.emit 0) else t.settleAt rank s.level

/-- The next step of a flood. -/
def tick (s : State α) : Except Fault (State α) :=
  match s.phase with
  | .survey => s.survey rank terrain
  | .rise => .ok (s.rise rank)
  | .close => .ok (s.close rank)
  | .finished | .stranded => .ok s

/-- A survey leaves the number of unseen and waiting positions together as it is. -/
theorem survey_marks {rank : Ranking α} {terrain : Terrain α} {s t : State α}
    (h : s.survey rank terrain = .ok t) :
    t.visited.countUnset + t.frontier.size = s.visited.countUnset + s.frontier.size ∧
      (t.phase = .close ∨ t.phase = .rise) := by
  fun_induction survey rank terrain s with
  | case1 => simp at h
  | case2 s _ u hexamine ih =>
    obtain ⟨-, hu | hu⟩ := examine_marks hexamine
    · exact ⟨by rw [(ih h).1, hu.1, hu.2.1], (ih h).2⟩
    · exact ⟨by rw [(ih h).1, hu.2, ← hu.1]; omega, (ih h).2⟩
  | case3 s =>
    cases h
    refine ⟨rfl, ?_⟩
    simp only [arrive]
    split <;> simp

/-- What a flood still has to do: positions to see or enter, and phases to the end. -/
def toDo (s : State α) : Nat :=
  4 * (s.visited.countUnset + s.frontier.size) +
    match s.phase with
    | .survey => 3
    | .rise => 2
    | .close => 1
    | .finished | .stranded => 0

/-- Settling the stack leaves nothing more to do. -/
theorem toDo_settleAt_le {rank : Ranking α} {s : State α} {level : α} :
    (s.settleAt rank level).toDo ≤ s.toDo := by
  unfold toDo settleAt tellAll
  by_cases h : (settle rank s.floor level s.basins).stranded = true
  · simp only [h, if_true]; omega
  · simp [h]

/-- Every step leaves less to do, until the flood is over. -/
theorem tick_lt {rank : Ranking α} {terrain : Terrain α} {s t : State α}
    (h : s.tick rank terrain = .ok t) (running : s.ended = false) : t.toDo < s.toDo := by
  unfold tick at h
  split at h
  next hphase =>
    obtain ⟨hsum, ht | ht⟩ := survey_marks h <;> simp only [toDo, hphase, ht] <;> omega
  next hphase =>
    cases h
    unfold rise
    split
    · simp only [toDo, hphase]; omega
    next rest hpop =>
      have hsize := Frontier.size_pop hpop
      split
      · simp only [toDo, hphase, Frontier.size_release]; omega
      · refine Nat.lt_of_le_of_lt toDo_settleAt_le ?_
        simp only [toDo, hphase, Frontier.size_release]; omega
  next hphase =>
    cases h
    unfold close
    split
    · simp only [toDo, tell, hphase]; omega
    · refine Nat.lt_of_le_of_lt toDo_settleAt_le ?_
      simp only [toDo, hphase]; omega
  all_goals simp_all [ended]

end State

end LevelTree.Flood
