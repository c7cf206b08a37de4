import LevelTree.Proofs.Flood.Coverage
import LevelTree.Proofs.Flood.Discipline
import LevelTree.Proofs.Flood.Verdict
import LevelTree.Proofs.Protocol

/-!
# The protocol of a flood

Whatever the ranking is, and whether the flood is whole or stranded, what it logs keeps the protocol
(`call_protocol`): a script goes along with its moves, and has the stack of the flood as its open
regions.
-/

namespace LevelTree.Flood

variable {α : Type} {rank : Ranking α} {t : Terrain α} {s u : State α} {level lastLevel : α}

/-- The names of a stack over the floor. -/
def namesOf (basins : List (Basin α)) : List Nat := basins.map Basin.name ++ [0]

theorem namesOf_eq (basins : List (Basin α)) (floor : α) :
    ∃ rest, namesOf basins = (basins.headD ⟨0, floor⟩).name :: rest := by
  cases basins with
  | nil => exact ⟨[], rfl⟩
  | cons b basins => exact ⟨namesOf basins, rfl⟩

/-- A script allows the log of a flood, and has its stack. -/
structure Scripted (s : State α) (script : Script Nat) : Prop where
  runs : Script.Runs .blank s.log.toList script
  stack : script.stack = namesOf s.basins
  lt_nextName : ∀ n ∈ script.names, n < s.nextName
  /-- The topmost region has got the position that was surveyed. -/
  fed : s.phase = .rise ∨ s.phase = .close → script.turn = .fed

/-- A script allows what settling the stack does once its top has got positions. -/
theorem exists_runs_settle (rank : Ranking α) (floor level : α) (names : List Nat)
    (basins : List (Basin α)) : ∃ turn,
    Script.Runs ⟨names, namesOf basins, .fed⟩ (settle rank floor level basins).events
      ⟨names, namesOf (settle rank floor level basins).basins, turn⟩ := by
  induction basins with
  | nil => exact ⟨_, .nil⟩
  | cons b basins ih =>
    obtain ⟨rest, hrest⟩ := namesOf_eq basins floor
    have hemit : Script.Step ⟨names, b.name :: namesOf basins, .fed⟩ (.emit b.name : Event Nat α)
      ⟨names, b.name :: namesOf basins, .emitted⟩ := .emit
    have hmerge : Script.Step ⟨names, b.name :: namesOf basins, .emitted⟩
        (.merge (basins.headD ⟨0, floor⟩).name b.name : Event Nat α)
        ⟨names, namesOf basins, .fed⟩ := by
      rw [hrest]
      exact .merge
    rw [settle]
    dsimp only
    split
    · exact ⟨_, .cons hemit (.cons .raise .nil)⟩
    · exact ⟨_, .cons hemit (.cons hmerge .nil)⟩
    · obtain ⟨turn, hruns⟩ := ih
      exact ⟨turn, .cons hemit (.cons hmerge hruns)⟩

theorem phase_settleAt_eq (h : s.phase = .survey ∨ s.phase = .finished) :
    ¬ ((s.settleAt rank level).phase = .rise ∨ (s.settleAt rank level).phase = .close) := by
  rw [phase_settleAt]
  split
  · simp
  · rcases h with h | h <;> simp [h]

/-- Settling the stack is scripted when its top has got positions. -/
theorem Scripted.settleAt {script : Script Nat} (h : Scripted s script) (fed : script.turn = .fed)
    (level : α) (hphase : s.phase = .survey ∨ s.phase = .finished) :
    ∃ script, Scripted (s.settleAt rank level) script := by
  obtain ⟨names, stack, turn⟩ := script
  obtain rfl : stack = namesOf s.basins := h.stack
  obtain rfl : turn = .fed := fed
  obtain ⟨turn, hruns⟩ := exists_runs_settle rank s.floor level names s.basins
  refine ⟨⟨names, namesOf (s.settleAt rank level).basins, turn⟩, ?_, rfl, h.lt_nextName,
    fun hrise => absurd hrise (phase_settleAt_eq hphase)⟩
  rw [State.log_settleAt, Array.toList_appendList]
  exact h.runs.append hruns

/-- What leaves the log and the stack is scripted as before, if it goes on with a survey or is over. -/
theorem Scripted.congr {script : Script Nat} (h : Scripted s script) (log : u.log = s.log)
    (basins : u.basins = s.basins) (nextName : u.nextName = s.nextName)
    (phase : u.phase = .survey ∨ u.phase = .finished) : Scripted u script where
  runs := log ▸ h.runs
  stack := basins ▸ h.stack
  lt_nextName := nextName ▸ h.lt_nextName
  fed := by rcases phase with hphase | hphase <;> simp [hphase]

/-- The names of the topmost region and of those beneath it. -/
theorem namesOf_top (s : State α) : ∃ rest, namesOf s.basins = s.top.name :: rest :=
  namesOf_eq s.basins s.floor

theorem Scripted.look {script : Script Nat} (h : Scripted s script) (phase : s.phase = .survey)
    (looks : Looks rank t s u) : ∃ script, Scripted u script := by
  cases looks with
  | skip => exact ⟨script, h.congr rfl rfl rfl (.inl phase)⟩
  | wait => exact ⟨script, h.congr rfl rfl rfl (.inl phase)⟩
  | @descend q l visited frontier =>
    obtain ⟨names, stack, turn⟩ := script
    have new : s.nextName ∉ names := fun hn => Nat.lt_irrefl _ (h.lt_nextName _ hn)
    refine ⟨⟨s.nextName :: names, s.nextName :: stack, .due⟩, ?_, ?_, fun n hn => ?_, ?_⟩
    · rw [State.log_sink, Array.toList_push]
      exact h.runs.concat (.create new)
    · exact congrArg (s.nextName :: ·) h.stack
    · rcases List.mem_cons.1 hn with rfl | hn
      · exact Nat.lt_succ_self _
      · exact Nat.lt_succ_of_lt (h.lt_nextName n hn)
    · have hphase : (s.sink visited frontier q l).phase = .survey := phase
      simp [hphase]

theorem Scripted.arrive {script : Script Nat} (h : Scripted s script) :
    ∃ script, Scripted s.arrive script := by
  obtain ⟨names, stack, turn⟩ := script
  obtain ⟨rest, hrest⟩ := namesOf_top s
  obtain rfl : stack = s.top.name :: rest := h.stack.trans hrest
  refine ⟨⟨names, s.top.name :: rest, .fed⟩, ?_, hrest.symm, h.lt_nextName, fun _ => rfl⟩
  rw [State.log_arrive, Array.toList_push]
  exact h.runs.concat .add

theorem Scripted.close {script : Script Nat} (h : Scripted s script) (phase : s.phase = .close) :
    ∃ script, Scripted (s.close rank) script := by
  have fed : script.turn = .fed := h.fed (.inr phase)
  have hfinished : Scripted { s with phase := .finished } script := h.congr rfl rfl rfl (.inr rfl)
  rw [State.close]
  split
  next hempty =>
    obtain ⟨names, stack, turn⟩ := script
    have hbasins : s.basins = [] := by simpa using hempty
    obtain rfl : stack = [0] := by
      have hstack := h.stack
      rwa [hbasins] at hstack
    obtain rfl : turn = .fed := fed
    refine ⟨⟨names, [0], .emitted⟩, ?_, hfinished.stack, hfinished.lt_nextName, by simp⟩
    rw [State.log_tell, Array.toList_push]
    exact h.runs.concat .emit
  next => exact hfinished.settleAt fed s.level (.inr rfl)

/-- Every move is scripted. -/
theorem Scripted.move {script : Script Nat} (h : Scripted s script) (moves : Moves rank t s u) :
    ∃ script, Scripted u script := by
  cases moves with
  | look phase _ looks => exact h.look phase looks
  | arrive => exact h.arrive
  | stay => exact ⟨script, h.congr rfl rfl rfl (.inl rfl)⟩
  | @climb slot r left phase =>
    have hentered : Scripted (s.enter slot r left) script := h.congr rfl rfl rfl (.inl rfl)
    exact hentered.settleAt (h.fed (.inl phase)) r.level (.inl rfl)
  | close phase => exact h.close phase

theorem Scripted.moves {script : Script Nat} (h : Scripted s script)
    (moves : Relation.ReflTransGen (Moves rank t) s u) : ∃ script, Scripted u script := by
  induction moves with
  | refl => exact ⟨script, h⟩
  | tail _ hmove ih =>
    obtain ⟨script, hscript⟩ := ih
    exact hscript.move hmove

theorem Starts.scripted (hs : Starts t lastLevel s) : Scripted s ⟨[1, 0], [1, 0], .due⟩ where
  runs := by
    rw [hs.log]
    exact .cons .floor (.cons (.create (by simp)) .nil)
  stack := by rw [hs.basins]; rfl
  lt_nextName := by simp [hs.nextName]
  fed := by simp [hs.phase]

/-- A flood is scripted wherever it is looked at. -/
theorem Visits.scripted (visits : Visits rank t lastLevel s) : ∃ script, Scripted s script := by
  obtain ⟨s₀, starts, -, rfl | ⟨-, moves⟩⟩ := visits.cases
  · exact ⟨_, starts.scripted⟩
  · exact starts.scripted.moves moves

/-- Under any ranking, a flood answers where its cells and neighbours can be counted, and the log it
answers with keeps the protocol, whether it is whole or not. -/
theorem call_protocol (t : Terrain α) (settings : Settings α) (lastLevel : α) :
    (t.Fits → ∃ outcome, Flood.run t settings lastLevel = .ok outcome) ∧
      ∀ outcome, Flood.run t settings lastLevel = .ok outcome → Protocol outcome.log.toList := by
  constructor
  · intro fits
    by_cases flood : t.Floodable
    · obtain ⟨s, u, hstart, -, hrun, -⟩ := exists_run flood fits settings.rank lastLevel
      exact ⟨_, run_eq hstart hrun⟩
    · obtain ⟨failure, hrun, -⟩ := exists_refused flood fits settings lastLevel
      exact ⟨_, hrun⟩
  · intro outcome hrun
    rcases visits_of_run hrun with hlog | ⟨u, visits, -, hlog⟩
    · rw [hlog]
      exact Script.Runs.nil.protocol
    · obtain ⟨script, hscript⟩ := visits.scripted
      rw [hlog]
      exact hscript.runs.protocol

/-- A ranking that calls no two levels equal, not even a level and itself. -/
def unequal : Ranking Nat := fun a b => if a < b then .lt else .gt

/-- Under such a ranking the first basin of the slope is emitted twice, each time after it was fed:
first by the merge, then by the position it was left for. -/
theorem call_protocol_slope : slope.Fits ∧
    ∃ outcome, Flood.run slope ⟨unequal, true⟩ 9 = .ok outcome ∧
      outcome.log.toList = [.floor 0 9, .create 1 5, .create 2 1, .add 2 [1], .emit 2, .merge 1 2,
        .emit 1, .raise 1 5, .add 1 [0], .emit 1, .raise 1 5] ∧
      Protocol outcome.log.toList := by
  have fits : slope.Fits := ⟨by decide, by decide⟩
  have heval : (Flood.run slope ⟨unequal, true⟩ 9).map (·.log.toList) =
      .ok [.floor 0 9, .create 1 5, .create 2 1, .add 2 [1], .emit 2, .merge 1 2,
        .emit 1, .raise 1 5, .add 1 [0], .emit 1, .raise 1 5] := by decide +kernel
  obtain ⟨answers, keeps⟩ := call_protocol slope ⟨unequal, true⟩ 9
  obtain ⟨outcome, hrun⟩ := answers fits
  have hlog := heval
  rw [hrun] at hlog
  exact ⟨fits, outcome, hrun, by simpa [Except.map] using hlog, keeps outcome hrun⟩

end LevelTree.Flood
