import LevelTree.Proofs.Cells
import LevelTree.Proofs.Flood.Coverage
import LevelTree.Proofs.Flood.Visits

/-!
# The schedule of a flood

The run of a flood with a record of its turns, and of the neighbours that each survey looks at. The
record changes nothing (`chronicle_eq`). What was looked at so far can be read off any state, from the
added positions and from the cursors of the others (`State.looked`), and every turn adds its looks to
that (`Told.turn`). So a flood that comes to its end takes one survey for each reachable position, one
rise less, one close and a last turn, and looks at each neighbour of each reachable position once; a
flood that is stranded takes fewer turns (`schedule`).
-/

namespace LevelTree.Flood

variable {α : Type} {rank : Ranking α} {t : Terrain α} {s u : State α} {settings : Settings α}

/-- A turn of the loop that runs a flood. -/
inductive Turn where
  /-- A survey that looks at these neighbours, given by position and number. -/
  | survey (looks : List (Position × Nat))
  /-- A rise to a waiting position. -/
  | rise
  /-- A rise with nothing waiting. -/
  | lapse
  | close
  /-- The turn that finds the flood finished. -/
  | done
  deriving Repr, DecidableEq

namespace Turn

/-- The neighbours that were looked at. -/
def looks : Turn → List (Position × Nat)
  | .survey looks => looks
  | _ => []

def isSurvey : Turn → Bool
  | .survey _ => true
  | _ => false

/-- Every turn is of one kind. -/
theorem length_eq (turns : List Turn) : turns.length =
    turns.countP isSurvey + turns.count .rise + turns.count .lapse + turns.count .close +
      turns.count .done := by
  induction turns with
  | nil => rfl
  | cons turn turns ih =>
    rw [List.length_cons, ih, List.countP_cons]
    simp only [List.count_cons]
    cases turn <;> simp [isSurvey] <;> omega

end Turn

namespace State

variable (rank : Ranking α) (terrain : Terrain α)

/-- The survey, with the neighbours it looks at. -/
def surveyed (s : State α) : Except Fault (List (Position × Nat) × State α) :=
  if s.walk.hasNext then
    match _h : s.examine rank terrain with
    | .error fault => .error fault
    | .ok t => t.surveyed.map fun (looks, u) => ((s.position, s.walk.cursor) :: looks, u)
  else .ok ([], s.arrive)
termination_by s.visited.countUnset * (s.walk.bound + 1) + (s.walk.bound - s.walk.cursor)
decreasing_by
  have hlt : s.walk.cursor < s.walk.bound := by simpa [Walk.hasNext] using ‹s.walk.hasNext = true›
  obtain ⟨hbound, h | h⟩ := examine_marks ‹s.examine rank terrain = .ok t›
  · rw [hbound, h.1]; omega
  · rw [hbound, ← h.1, Nat.add_mul]; omega

/-- The next step of a flood, with the turn it is. -/
def turn (s : State α) : Except Fault (Turn × State α) :=
  match s.phase with
  | .survey => (s.surveyed rank terrain).map fun (looks, t) => (.survey looks, t)
  | .rise => .ok (if (s.frontier.pop rank).isSome then .rise else .lapse, s.rise rank)
  | .close => .ok (.close, s.close rank)
  | .finished | .stranded => .ok (.done, s)

theorem survey_eq (s : State α) : s.survey rank terrain = (s.surveyed rank terrain).map (·.2) := by
  fun_induction surveyed rank terrain s with
  | case1 s left fault hexamine =>
    rw [survey_of_left left, hexamine]
    rfl
  | case2 s left u hexamine ih =>
    rw [survey_of_left left, hexamine, Except.bind, ih]
    cases u.surveyed rank terrain <;> rfl
  | case3 s done =>
    rw [survey_of_done (by simpa using done)]
    rfl

theorem tick_eq (s : State α) : s.tick rank terrain = (s.turn rank terrain).map (·.2) := by
  unfold tick turn
  cases s.phase with
  | survey =>
    rw [survey_eq]
    cases s.surveyed rank terrain <;> rfl
  | _ => rfl

/-- The run, with its turns. -/
def chronicle (s : State α) : Except Fault (List Turn × State α) :=
  if s.phase = .stranded then .ok ([], s)
  else if s.phase = .finished then .ok ([.done], s)
  else
    match _h : s.turn rank terrain with
    | .error fault => .error fault
    | .ok (turn, t) => (t.chronicle).map fun (turns, u) => (turn :: turns, u)
termination_by s.toDo
decreasing_by
  have htick : s.tick rank terrain = .ok t := by
    rw [tick_eq, ‹s.turn rank terrain = .ok (turn, t)›]
    rfl
  exact tick_lt htick (by simp [ended, *])

/-- The turns change nothing in the run. -/
theorem chronicle_eq (s : State α) : s.run rank terrain = (s.chronicle rank terrain).map (·.2) := by
  fun_induction chronicle rank terrain s with
  | case1 s stranded =>
    rw [run_of_ended (by simp [ended, stranded])]
    rfl
  | case2 s _ finished =>
    rw [run_of_ended (by simp [ended, finished])]
    rfl
  | case3 s hs hf fault hturn =>
    rw [run_of_running (by simp [ended, hs, hf]), tick_eq, hturn]
    rfl
  | case4 s hs hf turn u hturn ih =>
    rw [run_of_running (by simp [ended, hs, hf]), tick_eq, hturn]
    change u.run rank terrain = _
    rw [ih]
    cases u.chronicle rank terrain <;> rfl

/-- The awaited positions, each with the number of the neighbour it is to look at next. -/
def begun (s : State α) : List (Position × Nat) :=
  (if s.phase = .survey then [(s.position, s.walk.cursor)] else []) ++
    s.frontier.waiting.map fun r => (r.position, r.cursor)

end State

/-! ## Looks -/

/-- The neighbours of a position below a number, of which there are `bound`. -/
def lookedBelow (bound : Nat) (entry : Position × Nat) : List (Position × Nat) :=
  (List.range (min entry.2 bound)).map (entry.1, ·)

/-- The neighbours that were looked at so far: all those of the added positions, and those below the
cursors of the awaited ones. -/
def State.looked (t : Terrain α) (s : State α) : List (Position × Nat) :=
  (s.added.map (·, t.sides.length * 2) ++ s.begun).flatMap (lookedBelow (t.sides.length * 2))

section Looked

variable {p : Position} {k bound : Nat} {entries : List (Position × Nat)}

theorem mem_lookedBelow {e : Position × Nat} :
    (p, k) ∈ lookedBelow bound e ↔ p = e.1 ∧ k < e.2 ∧ k < bound := by
  simp only [lookedBelow, List.mem_map, List.mem_range, Prod.mk.injEq, Nat.lt_min]
  constructor
  · rintro ⟨j, hj, hp, rfl⟩
    exact ⟨hp.symm, hj⟩
  · rintro ⟨rfl, hk⟩
    exact ⟨k, hk, rfl, rfl⟩

theorem lookedBelow_succ (h : k < bound) :
    lookedBelow bound (p, k + 1) = lookedBelow bound (p, k) ++ [(p, k)] := by
  have hsucc : min (k + 1) bound = min k bound + 1 := by omega
  have hk : min k bound = k := by omega
  rw [lookedBelow, hsucc, List.range_succ, List.map_append, hk]
  simp [lookedBelow, hk]

/-- Nothing was looked at twice where no position stands twice. -/
theorem nodup_lookedBelow (h : (entries.map (·.1)).Nodup) :
    (entries.flatMap (lookedBelow bound)).Nodup := by
  rw [List.nodup_flatMap]
  constructor
  · intro e _
    exact List.nodup_range.map fun i j hij => (Prod.mk.inj hij).2
  · refine (List.pairwise_map.1 h).imp fun {e o} hne => ?_
    intro ⟨p, k⟩ he ho
    exact hne ((mem_lookedBelow.1 he).1.symm.trans (mem_lookedBelow.1 ho).1)

end Looked

theorem map_fst_begun : s.begun.map (·.1) = s.awaited := by
  unfold State.begun State.awaited
  split <;> simp

theorem begun_of_survey (phase : s.phase = .survey) : s.begun =
    (s.position, s.walk.cursor) :: s.frontier.waiting.map fun r => (r.position, r.cursor) := by
  simp [State.begun, phase]

theorem begun_of_ne (phase : s.phase ≠ .survey) :
    s.begun = s.frontier.waiting.map fun r => (r.position, r.cursor) := by
  simp [State.begun, phase]

theorem mem_looked_iff {p : Position} {k : Nat} : (p, k) ∈ s.looked t ↔
    k < t.sides.length * 2 ∧ (p ∈ s.added ∨ ∃ j, (p, j) ∈ s.begun ∧ k < j) := by
  simp only [State.looked, List.mem_flatMap, List.mem_append, List.mem_map, mem_lookedBelow]
  constructor
  · rintro ⟨e, ⟨q, hq, rfl⟩ | he, rfl, hk, hbound⟩
    · exact ⟨hbound, .inl hq⟩
    · exact ⟨hbound, .inr ⟨e.2, he, hk⟩⟩
  · rintro ⟨hbound, hp | ⟨j, hj, hk⟩⟩
    · exact ⟨_, .inl ⟨p, hp, rfl⟩, rfl, hbound, hbound⟩
    · exact ⟨_, .inr hj, rfl, hk, hbound⟩

theorem Accounted.nodup_looked (h : Accounted t s) : (s.looked t).Nodup := by
  refine nodup_lookedBelow ?_
  rw [List.map_append, map_fst_begun, List.map_map]
  simpa [Function.comp_def] using h.tallied.nodup

/-- Only reachable positions are looked around from. -/
theorem Accounted.reachable_looked (h : Accounted t s) {p : Position} {k : Nat}
    (hk : (p, k) ∈ s.looked t) : t.Reachable p ∧ k < t.sides.length * 2 := by
  obtain ⟨hbound, hp | ⟨j, hj, -⟩⟩ := mem_looked_iff.1 hk
  · exact ⟨h.tallied.reachable p ((h.tallied.marks p).2 (.inl hp)), hbound⟩
  · have hawaited : p ∈ s.awaited := map_fst_begun ▸ List.mem_map_of_mem hj
    exact ⟨h.tallied.reachable p ((h.tallied.marks p).2 (.inr hawaited)), hbound⟩

theorem looked_congr (added : u.added = s.added) (begun : u.begun.Perm s.begun) :
    (u.looked t).Perm (s.looked t) := by
  rw [State.looked, State.looked, added]
  exact (begun.append_left _).flatMap_right _

/-- A look moves the cursor of the position on by one, and at most begins another position. -/
theorem Looks.begun (looks : Looks rank t s u) (intact : s.frontier.Intact [])
    (phase : s.phase = .survey) : u.added = s.added ∧ ∃ fresh, (∀ e ∈ fresh, e.2 = 0) ∧
      u.begun.Perm ((s.position, s.walk.cursor + 1) ::
        (fresh ++ s.frontier.waiting.map fun r => (r.position, r.cursor))) := by
  cases looks with
  | skip =>
    refine ⟨rfl, [], by simp, ?_⟩
    rw [begun_of_survey (s := s.pass) phase]
    exact .refl _
  | @wait q l visited frontier found marked pushed =>
    refine ⟨rfl, [(q, 0)], by simp, ?_⟩
    have hperm := (Frontier.spec_of_push intact pushed).2.map fun r => (r.position, r.cursor)
    rw [begun_of_survey (s := s.see visited frontier) phase]
    exact hperm.cons _
  | @descend q l visited frontier found marked pushed =>
    refine ⟨added_sink, [(q, 0)], by simp, ?_⟩
    have hperm := (Frontier.spec_of_push intact pushed).2.map fun r => (r.position, r.cursor)
    rw [begun_of_survey (s := s.sink visited frontier q l) phase]
    exact (hperm.cons (q, 0)).trans (.swap ..)

/-- A look is one more of what was looked at. -/
theorem Looks.looked (looks : Looks rank t s u) (h : Accounted t s) (phase : s.phase = .survey)
    (left : s.walk.hasNext = true) :
    (u.looked t).Perm ((s.position, s.walk.cursor) :: s.looked t) := by
  obtain ⟨added, fresh, hfresh, hbegun⟩ := looks.begun h.intact phase
  have hlt : s.walk.cursor < t.sides.length * 2 := by
    simpa [Walk.hasNext, Walk.bound, h.walk] using left
  have hnone : fresh.flatMap (lookedBelow (t.sides.length * 2)) = [] := by
    rw [List.flatMap_eq_nil_iff]
    intro e he
    simp [lookedBelow, hfresh e he]
  have hperm := (hbegun.append_left (s.added.map (·, t.sides.length * 2))).flatMap_right
    (lookedBelow (t.sides.length * 2))
  rw [State.looked, added]
  refine hperm.trans (List.perm_iff_count.2 fun a => ?_)
  simp only [State.looked, begun_of_survey phase, List.flatMap_append, List.flatMap_cons, hnone,
    lookedBelow_succ hlt, List.count_append, List.count_cons, List.nil_append, List.count_nil]
  omega

/-- A survey that is done has looked at all neighbours of its position. -/
theorem looked_arrive (h : Accounted t s) (phase : s.phase = .survey)
    (done : s.walk.hasNext = false) : s.arrive.looked t = s.looked t := by
  have hle : t.sides.length * 2 ≤ s.walk.cursor := by
    simpa [Walk.hasNext, Walk.bound, h.walk] using done
  have hall : lookedBelow (t.sides.length * 2) (s.position, s.walk.cursor) =
      lookedBelow (t.sides.length * 2) (s.position, t.sides.length * 2) := by
    simp [lookedBelow, Nat.min_eq_right hle]
  rw [State.looked, State.looked, added_arrive, begun_of_ne phase_arrive.1, begun_of_survey phase]
  simp only [List.map_append, List.map_cons, List.map_nil, List.flatMap_append, List.flatMap_cons,
    List.flatMap_nil, List.append_nil, hall, List.append_assoc]
  rfl

theorem looked_enter (h : Accounted t s) (phase : s.phase = .rise) {slot : Nat} {r : Record α}
    {rest : Frontier α} (popped : s.frontier.pop rank = some (slot, r, rest)) :
    ((s.enter slot r rest).looked t).Perm (s.looked t) := by
  have hperm := (Frontier.pop_spec h.intact popped).2.1.map fun r => (r.position, r.cursor)
  refine looked_congr rfl ?_
  rw [begun_of_survey rfl, begun_of_ne (by simp [phase])]
  exact hperm.symm

theorem looked_settleAt {level : α} (running : (s.settleAt rank level).phase = s.phase) :
    (s.settleAt rank level).looked t = s.looked t := by
  rw [State.looked, State.looked, added_settleAt, State.begun, State.begun, running]
  rfl

theorem looked_close (phase : s.phase = .close) (running : (s.close rank).phase ≠ .stranded) :
    (s.close rank).phase = .finished ∧ (s.close rank).added = s.added ∧
      (s.close rank).looked t = s.looked t := by
  have hbegun : State.begun { s with phase := .finished } = s.begun := by
    simp [State.begun, phase]
  have hlooked : State.looked t { s with phase := .finished } = s.looked t := by
    rw [State.looked, State.looked, hbegun]
    rfl
  unfold State.close at running ⊢
  split
  · refine ⟨rfl, added_tell_emit, ?_⟩
    rw [State.looked, added_tell_emit, ← hlooked]
    rfl
  next hbasins =>
    rw [if_neg hbasins] at running
    dsimp only at running ⊢
    have hphase := phase_settleAt_of_running running
    exact ⟨hphase, added_settleAt, (looked_settleAt hphase).trans hlooked⟩

/-! ## Turns -/

/-- What the turns so far tell of the state that they lead to. -/
structure Told (t : Terrain α) (turns : List Turn) (s : State α) : Prop where
  accounted : Accounted t s
  looks : (turns.flatMap Turn.looks).Perm (s.looked t)
  surveys : turns.countP Turn.isSurvey = s.added.length
  rises : turns.count .rise + (if s.phase = .survey then 0 else 1) = s.added.length
  lapses : turns.count .lapse = 0
  closes : turns.count .close = if s.phase = .finished then 1 else 0
  dones : turns.count .done = 0

/-- A survey comes to its end with the neighbours it looked at. -/
theorem Accounted.surveyed (rank : Ranking α) (h : Accounted t s) (flood : t.Floodable)
    (fits : t.Fits) (phase : s.phase = .survey) : ∃ looks u, s.surveyed rank t = .ok (looks, u) ∧
      Accounted t u ∧ (u.looked t).Perm (looks ++ s.looked t) ∧
      (u.phase = .close ∨ u.phase = .rise) ∧ u.added.length = s.added.length + 1 := by
  fun_induction State.surveyed rank t s with
  | case1 s left fault hexamine =>
    obtain ⟨u, hu, -⟩ := h.exists_looks rank flood fits phase left
    cases hu.symm.trans hexamine
  | case2 s left u hexamine ih =>
    obtain ⟨v, hv, hlooks⟩ := h.exists_looks rank flood fits phase left
    obtain rfl : v = u := by simpa using hv.symm.trans hexamine
    obtain ⟨haccounted, hphase⟩ := h.look phase hlooks
    obtain ⟨looks, w, hw, hlast, hperm, hended, hadded⟩ := ih haccounted hphase
    refine ⟨_, w, by rw [hw]; rfl, hlast, ?_, hended, ?_⟩
    · exact (hperm.trans ((hlooks.looked h phase left).append_left looks)).trans List.perm_middle
    · rw [hadded, (hlooks.begun h.intact phase).1]
  | case3 s done =>
    have done : s.walk.hasNext = false := by simpa using done
    refine ⟨[], _, rfl, h.arrive flood fits phase done, ?_, phase_arrive_or, ?_⟩
    · rw [looked_arrive h phase done, List.nil_append]
    · simp [added_arrive]

/-- A rise enters a waiting position, and nothing more is looked at, unless it strands the flood. -/
theorem Accounted.rise (rank : Ranking α) (h : Accounted t s) (phase : s.phase = .rise) :
    (s.frontier.pop rank).isSome ∧ ((s.rise rank).phase ≠ .stranded → Accounted t (s.rise rank) ∧
      (s.rise rank).phase = .survey ∧ (s.rise rank).added = s.added ∧
      ((s.rise rank).looked t).Perm (s.looked t)) := by
  have hwaits : s.frontier.waiting ≠ [] := by
    have := h.waits
    rwa [phase] at this
  obtain ⟨slot, r, rest, popped⟩ := Frontier.pop_eq_some rank hwaits
  have hrise : s.rise rank = if rank r.level s.level = .eq then s.enter slot r rest
      else (s.enter slot r rest).settleAt rank r.level := by
    unfold State.rise
    rw [popped]
    rfl
  have haccounted := h.enter phase popped
  have hlooked := looked_enter (t := t) h phase popped
  refine ⟨by rw [popped]; rfl, ?_⟩
  rw [hrise]
  split
  · intro _
    exact ⟨haccounted, rfl, rfl, hlooked⟩
  · intro running
    have hphase := phase_settleAt_of_running running
    refine ⟨haccounted.settleAt running, hphase, added_settleAt, ?_⟩
    rw [looked_settleAt hphase]
    exact hlooked

/-- A flood that goes on takes a turn, and the turn tells of what it leads to unless the flood is
stranded by it. -/
theorem Told.turn (rank : Ranking α) {turns : List Turn} (h : Told t turns s) (flood : t.Floodable)
    (fits : t.Fits) (running : s.ended = false) : ∃ turn u, s.turn rank t = .ok (turn, u) ∧
      (u.phase ≠ .stranded → Told t (turns ++ [turn]) u) ∧
      (u.phase = .stranded → turn = .rise ∧ s.phase = .rise ∨ turn = .close ∧ s.phase = .close) := by
  obtain ⟨accounted, hlooks, hsurveys, hrises, hlapses, hcloses, hdones⟩ := h
  unfold State.turn
  cases phase : s.phase with
  | survey =>
    obtain ⟨looks, u, hu, haccounted, hperm, hphase, hadded⟩ :=
      accounted.surveyed rank flood fits phase
    have hrunning : u.phase ≠ .survey ∧ u.phase ≠ .finished ∧ u.phase ≠ .stranded := by
      rcases hphase with hphase | hphase <;> simp [hphase]
    simp only [phase, reduceCtorEq, if_true, if_false] at hrises hcloses
    refine ⟨.survey looks, u, by rw [hu]; rfl, fun _ => ?_, fun h => absurd h hrunning.2.2⟩
    constructor
    case accounted => exact haccounted
    case looks =>
      rw [List.flatMap_append, List.flatMap_singleton]
      exact (List.perm_append_comm.trans (hlooks.append_left looks)).trans hperm.symm
    all_goals simp [Turn.isSurvey, List.count_append, *]
  | rise =>
    obtain ⟨hpop, hnext⟩ := accounted.rise rank phase
    simp only [phase, reduceCtorEq, if_false] at hrises hcloses
    refine ⟨.rise, _, by rw [if_pos hpop], fun hu => ?_, fun _ => .inl ⟨rfl, rfl⟩⟩
    obtain ⟨haccounted, hphase, hadded, hperm⟩ := hnext hu
    constructor
    case accounted => exact haccounted
    case looks =>
      rw [List.flatMap_append, List.flatMap_singleton]
      simpa [Turn.looks] using hlooks.trans hperm.symm
    all_goals simp [Turn.isSurvey, List.count_append, *]
  | close =>
    simp only [phase, reduceCtorEq, if_false] at hrises hcloses
    refine ⟨.close, _, rfl, fun hu => ?_, fun _ => .inr ⟨rfl, rfl⟩⟩
    obtain ⟨hphase, hadded, hlooked⟩ := looked_close (t := t) phase hu
    constructor
    case accounted => exact accounted.close phase hu
    case looks =>
      rw [List.flatMap_append, List.flatMap_singleton, hlooked]
      simpa [Turn.looks] using hlooks
    all_goals simp [Turn.isSurvey, List.count_append, *]
  | finished => simp [State.ended, phase] at running
  | stranded => simp [State.ended, phase] at running

/-- The turns of a chronicle that starts where the turns before have led to: either they tell of the
end of the flood, with one turn more, or of the state in which the last turn strands it. -/
structure Chronicled (t : Terrain α) (before turns : List Turn) (u : State α) : Prop where
  ended : u.ended = true
  finished : u.phase = .finished → ∃ more, turns = more ++ [.done] ∧ Told t (before ++ more) u
  stranded : u.phase = .stranded → ∃ more last v, turns = more ++ [last] ∧
    Told t (before ++ more) v ∧ (last = .rise ∧ v.phase = .rise ∨ last = .close ∧ v.phase = .close)

/-- What is told up to some state goes on to the end of its chronicle. -/
theorem Told.chronicle (rank : Ranking α) {before : List Turn} (h : Told t before s)
    (running : s.phase ≠ .stranded) (flood : t.Floodable) (fits : t.Fits) :
    ∃ turns u, s.chronicle rank t = .ok (turns, u) ∧ Chronicled t before turns u := by
  fun_induction State.chronicle rank t s generalizing before with
  | case1 s hstranded => exact absurd hstranded running
  | case2 s _ hfinished =>
    refine ⟨_, _, rfl, by simp [State.ended, hfinished], fun _ => ?_, fun h => absurd h running⟩
    exact ⟨[], rfl, by simpa using h⟩
  | case3 s hs hf fault hturn =>
    obtain ⟨turn, u, hu, -⟩ := h.turn rank flood fits (by simp [State.ended, hs, hf])
    cases hu.symm.trans hturn
  | case4 s hs hf turn u hturn ih =>
    obtain ⟨turn', v, hv, htold, hstrands⟩ := h.turn rank flood fits (by simp [State.ended, hs, hf])
    obtain ⟨rfl, rfl⟩ : turn' = turn ∧ v = u := by simpa using hv.symm.trans hturn
    by_cases hstranded : v.phase = .stranded
    · rw [State.chronicle, if_pos hstranded]
      refine ⟨_, _, rfl, by simp [State.ended, hstranded], by simp [hstranded], fun _ => ?_⟩
      refine ⟨[], turn', s, rfl, by simpa using h, hstrands hstranded⟩
    · obtain ⟨turns, w, hw, ended, finished, stranded⟩ := ih (htold hstranded) hstranded
      refine ⟨_, w, by rw [hw]; rfl, ended, fun hphase => ?_, fun hphase => ?_⟩
      · obtain ⟨more, rfl, hmore⟩ := finished hphase
        exact ⟨turn' :: more, rfl, by simpa using hmore⟩
      · obtain ⟨more, last, x, rfl, hmore, hlast⟩ := stranded hphase
        exact ⟨turn' :: more, last, x, rfl, by simpa using hmore, hlast⟩

theorem Starts.told {lastLevel : α} (starts : Starts t lastLevel s)
    (hwalk : s.walk = .start t.sides) : Told t [] s := by
  have hadded : s.added = [] := by simp [State.added, starts.log, additions, Event.position?]
  have hlooked : s.looked t = [] := by
    rw [State.looked, hadded, begun_of_survey starts.phase, starts.frontier, hwalk]
    simp [lookedBelow, Walk.start, Frontier.waiting_empty]
  exact {
    accounted := starts.accounted
    looks := by simp [hlooked]
    surveys := by simp [hadded]
    rises := by simp [hadded, starts.phase]
    lapses := rfl
    closes := by simp [starts.phase]
    dones := rfl }

/-! ## Schedules -/

/-- What was looked at in the turns. -/
def looked (turns : List Turn) : List (Position × Nat) := turns.flatMap Turn.looks

/-- The turns of a flood that comes to its end: the neighbours of every reachable position are looked
at, and there are as many surveys as reachable positions. -/
structure Thorough (t : Terrain α) (turns : List Turn) : Prop where
  surveys : turns.countP Turn.isSurvey = {p | t.Reachable p}.ncard
  rises : turns.count .rise + 1 = {p | t.Reachable p}.ncard
  closes : turns.count .close = 1
  dones : turns.count .done = 1
  last : turns.getLast? = some .done
  length : turns.length = 2 * {p | t.Reachable p}.ncard + 1
  looks : ∀ p k, (p, k) ∈ looked turns ↔ t.Reachable p ∧ k < t.sides.length * 2

/-- The turns of a flood that is stranded: there are no more of them than of one that is not. -/
structure Curtailed (t : Terrain α) (turns : List Turn) : Prop where
  surveys : turns.countP Turn.isSurvey ≤ {p | t.Reachable p}.ncard
  rises : turns.count .rise + 1 ≤ {p | t.Reachable p}.ncard
  closes : turns.count .close ≤ 1
  dones : turns.count .done = 0
  length : turns.length ≤ 2 * {p | t.Reachable p}.ncard

/-- What was seen can be reached, so that it is not more than what can be reached. -/
theorem Accounted.length_seen_le (h : Accounted t s) :
    s.added.length + s.awaited.length ≤ {p | t.Reachable p}.ncard := by
  have hfinite : {p | t.Reachable p}.Finite := by
    refine (Extents.cells t.sides).finite_toSet.subset fun p hp => ?_
    exact Extents.mem_cells_iff.2 hp.readable.1
  have hsubset : ((s.added ++ s.awaited).toFinset : Set Position) ⊆ {p | t.Reachable p} := by
    intro p hp
    have hp := List.mem_append.1 (List.mem_toFinset.1 (Finset.mem_coe.1 hp))
    exact h.tallied.reachable p ((h.tallied.marks p).2 hp)
  have hle := Set.ncard_le_ncard hsubset hfinite
  rwa [Set.ncard_coe_finset, List.toFinset_card_of_nodup h.tallied.nodup, List.length_append] at hle

section Ends

variable {more : List Turn}

theorem Told.thorough (h : Told t more u) (phase : u.phase = .finished) :
    Thorough t (more ++ [.done]) := by
  have hsurveys := h.surveys
  have hrises := h.rises
  have hcloses := h.closes
  rw [← h.accounted.ncard_reachable phase] at hsurveys hrises
  rw [phase, if_neg (by simp)] at hrises
  rw [if_pos phase] at hcloses
  have hlength := Turn.length_eq (more ++ [.done])
  simp only [List.countP_append, List.count_append, hsurveys, hcloses, h.lapses, h.dones] at hlength
  constructor
  case surveys => simpa [Turn.isSurvey] using hsurveys
  case rises => simpa using hrises
  case closes => simpa using hcloses
  case dones => simpa using h.dones
  case last => simp
  case length =>
    rw [hlength]
    simp [Turn.isSurvey]
    omega
  case looks =>
    intro p k
    have hbegun : u.begun = [] := by
      rw [← List.map_eq_nil_iff (f := (·.1)), map_fst_begun]
      exact h.accounted.awaited_eq_nil phase
    have hlooked : (p, k) ∈ looked (more ++ [.done]) ↔ (p, k) ∈ u.looked t := by
      rw [← h.looks.mem_iff]
      simp [looked, Turn.looks]
    rw [hlooked, mem_looked_iff, hbegun, h.accounted.mem_added_iff phase]
    simp [and_comm]

/-- A flood is stranded by a rise, with a position that was not added waiting, or when it closes. -/
theorem Told.curtailed (h : Told t more u) {last : Turn}
    (stranding : last = .rise ∧ u.phase = .rise ∨ last = .close ∧ u.phase = .close) :
    Curtailed t (more ++ [last]) := by
  have hsurveys := h.surveys
  have hrises := h.rises
  have hcloses := h.closes
  have hseen := h.accounted.length_seen_le
  have hlength := Turn.length_eq (more ++ [last])
  simp only [List.countP_append, List.count_append, h.lapses, h.dones] at hlength
  rcases stranding with ⟨rfl, phase⟩ | ⟨rfl, phase⟩
  · have hwaits : u.awaited.length ≠ 0 := by
      have hallows := h.accounted.waits
      rw [phase] at hallows
      rw [State.awaited_of_ne (by simp [phase]), List.length_map]
      exact fun hnil => hallows (List.length_eq_zero_iff.1 hnil)
    simp only [phase, reduceCtorEq, if_false] at hrises hcloses
    simp [Turn.isSurvey] at hlength
    constructor <;> simp [Turn.isSurvey, h.dones] <;> omega
  · simp only [phase, reduceCtorEq, if_false] at hrises hcloses
    simp [Turn.isSurvey] at hlength
    constructor <;> simp [Turn.isSurvey, h.dones] <;> omega

/-- A turn that looks at nothing can be put behind the turns that are told of. -/
theorem Told.concat (h : Told t more u) {last : Turn} (hlooks : last.looks = [])
    (hlapse : last ≠ .lapse) : .lapse ∉ more ++ [last] ∧ (looked (more ++ [last])).Nodup ∧
      ∀ p k, (p, k) ∈ looked (more ++ [last]) → t.Reachable p ∧ k < t.sides.length * 2 := by
  have hlooked : (looked (more ++ [last])).Perm (u.looked t) := by
    rw [looked, List.flatMap_append, List.flatMap_singleton, hlooks, List.append_nil]
    exact h.looks
  refine ⟨?_, hlooked.nodup_iff.2 h.accounted.nodup_looked, fun p k hk => ?_⟩
  · have hnone := List.count_eq_zero.1 h.lapses
    simpa [hnone] using hlapse.symm
  · exact h.accounted.reachable_looked (hlooked.mem_iff.1 hk)

end Ends

/-- Under any ranking, a flood ends. It never rises with nothing waiting, and looks at no neighbour of a
position twice. Unless it is stranded, it takes one survey for each reachable position, one rise less,
one close and one last turn, and looks at every neighbour of each reachable position; stranded, it takes
fewer turns. -/
theorem schedule (t : Terrain α) (flood : t.Floodable) (fits : t.Fits) (settings : Settings α)
    (lastLevel : α) : ∃ s turns u, State.start t lastLevel = .ok s ∧
      s.chronicle settings.rank t = .ok (turns, u) ∧ s.run settings.rank t = .ok u ∧
      Flood.run t settings lastLevel = .ok ⟨u.log, u.result settings.validate⟩ ∧
      .lapse ∉ turns ∧ (looked turns).Nodup ∧
      (∀ p k, (p, k) ∈ looked turns → t.Reachable p ∧ k < t.sides.length * 2) ∧
      (u.result settings.validate ≠ .error .aboveFloor → Thorough t turns) ∧
      (u.result settings.validate = .error .aboveFloor → Curtailed t turns) := by
  obtain ⟨s, hstart, starts⟩ := exists_start flood fits.volume lastLevel
  have hwalk := (floodable_of_start hstart).2.2.1
  have hphase : s.phase ≠ .stranded := by simp [starts.phase]
  obtain ⟨turns, u, hturns, chronicled⟩ :=
    (starts.told hwalk).chronicle settings.rank hphase flood fits
  have hrun : s.run settings.rank t = .ok u := by
    rw [State.chronicle_eq, hturns]
    rfl
  have hflood := run_eq hstart hrun
  rcases result_of_ended chronicled.ended settings.validate with ⟨hphase, hresult⟩ | ⟨hphase, hresult⟩
  · obtain ⟨more, last, v, rfl, told, hlast⟩ := chronicled.stranded hphase
    have hkind : last.looks = [] ∧ last ≠ .lapse := by
      rcases hlast with ⟨rfl, -⟩ | ⟨rfl, -⟩ <;> simp [Turn.looks]
    obtain ⟨hlapse, hnodup, hwithin⟩ := told.concat hkind.1 hkind.2
    exact ⟨s, _, u, hstart, hturns, hrun, hflood, hlapse, hnodup, hwithin,
      fun hne => absurd hresult hne, fun _ => told.curtailed hlast⟩
  · obtain ⟨more, rfl, told⟩ := chronicled.finished hphase
    obtain ⟨hlapse, hnodup, hwithin⟩ := told.concat (show Turn.looks .done = [] from rfl) (by simp)
    refine ⟨s, _, u, hstart, hturns, hrun, hflood, hlapse, hnodup, hwithin,
      fun _ => told.thorough hphase, fun heq => ?_⟩
    rw [hresult] at heq
    split at heq <;> cases heq

/-- Four cells. -/
def square : Terrain Nat := ⟨[2, 2], [0, 0], fun _ => some 0⟩

theorem floodable_square : square.Floodable ∧ square.Fits :=
  ⟨⟨by decide, by decide, by decide, by decide⟩, by decide, by decide⟩

/-- The answer "before" to every question is no order, and brings the flood of the square to its end; the
answer "after" strands it at once. -/
theorem schedule_square : square.Floodable ∧ square.Fits ∧
    (∃ s turns u, State.start square 0 = .ok s ∧
      s.chronicle (Ranking.always .lt) square = .ok (turns, u) ∧
      u.result false ≠ .error .aboveFloor ∧ Thorough square turns) ∧
    ∃ s turns u, State.start square 0 = .ok s ∧
      s.chronicle (Ranking.always .gt) square = .ok (turns, u) ∧
      u.result false = .error .aboveFloor ∧ Curtailed square turns := by
  have hlt : (Flood.run square ⟨Ranking.always .lt, false⟩ 0).map (fun o => o.result.isOk) =
      .ok true := by decide +kernel
  have hgt : (Flood.run square ⟨Ranking.always .gt, false⟩ 0).map (·.result) =
      .ok (.error .aboveFloor) := by decide +kernel
  obtain ⟨flood, fits⟩ := floodable_square
  refine ⟨flood, fits, ?_, ?_⟩
  · obtain ⟨s, turns, u, hstart, hturns, -, hrun, -, -, -, thorough, -⟩ :=
      schedule square flood fits ⟨Ranking.always .lt, false⟩ 0
    have hresult : u.result false ≠ .error .aboveFloor := by
      intro h
      simp [hrun, h, Except.map, Except.isOk, Except.toBool] at hlt
    exact ⟨s, turns, u, hstart, hturns, hresult, thorough hresult⟩
  · obtain ⟨s, turns, u, hstart, hturns, -, hrun, -, -, -, -, curtailed⟩ :=
      schedule square flood fits ⟨Ranking.always .gt, false⟩ 0
    have hresult : u.result false = .error .aboveFloor := by simpa [hrun, Except.map] using hgt
    exact ⟨s, turns, u, hstart, hturns, hresult, curtailed hresult⟩

end LevelTree.Flood
