import LevelTree.Proofs.Flood.Verdict
import LevelTree.Proofs.Flood.Visits

/-!
# Floods that are not stranded

A flood is stranded when the stack is to be settled at a level and ends before it. No order is needed to
exclude that: it is enough that levels that a ranking tells apart rank before the last one, and that none
ranks after it (`finished_of_apart`). Then the stack is settled at such levels only, and keeps a basin
above the floor (`Moves.afloat`), which the flood can close with.
-/

namespace LevelTree.Flood

variable {α : Type} {rank : Ranking α} {t : Terrain α} {s u : State α} {level lastLevel floor : α}
  {basins : List (Basin α)}

/-- The settling of a stack that is not empty comes to an end above the floor or at it, if the floor does
not rank before the level. -/
theorem running_of_settle (hbasins : basins ≠ []) (high : rank level floor ≠ .gt) :
    (settle rank floor level basins).stranded = false := by
  induction basins with
  | nil => exact absurd rfl hbasins
  | cons b rest ih =>
    simp only [settle]
    split
    · rfl
    · rfl
    next hgt =>
      refine ih fun hnil => high ?_
      rwa [hnil] at hgt

/-- A basin is left when a stack is settled at a level before the floor. -/
theorem basins_of_settle (hbasins : basins ≠ []) (low : rank level floor = .lt) :
    (settle rank floor level basins).basins ≠ [] := by
  induction basins with
  | nil => exact absurd rfl hbasins
  | cons b rest ih =>
    -- under the last basin lies the floor, to which it is not merged
    have hrest : rank level (rest.headD ⟨0, floor⟩).level ≠ .lt → rest ≠ [] := by
      rintro hne rfl
      exact hne low
    simp only [settle]
    split
    · simp
    next heq => exact hrest (by rw [heq]; decide)
    next hgt => exact ih (hrest (by rw [hgt]; decide))

/-- The flood is accounted for, and keeps a basin until it is finished. -/
structure Afloat (t : Terrain α) (lastLevel : α) (s : State α) : Prop where
  accounted : Accounted t s
  floor : s.floor = lastLevel
  running : s.phase ≠ .stranded
  basins : s.phase ≠ .finished → s.basins ≠ []

theorem Starts.afloat (starts : Starts t lastLevel s) : Afloat t lastLevel s where
  accounted := starts.accounted
  floor := starts.floor
  running := by simp [starts.phase]
  basins := fun _ => by simp [starts.basins]

section Apart

variable (below : ∀ p a, t.level? p = some a → rank a lastLevel ≠ .gt)
  (apart : ∀ p q a b, t.level? p = some a → t.level? q = some b → rank a b ≠ .eq →
    rank a lastLevel = .lt)

include below apart

/-- Every move keeps the flood afloat: it rises only to levels before the floor. -/
theorem Moves.afloat (moves : Moves rank t s u) (h : Afloat t lastLevel s) (flood : t.Floodable)
    (fits : t.Fits) : Afloat t lastLevel u := by
  have hmove := moves
  cases moves with
  | look phase _ looks =>
    have hbasins := h.basins (by simp [phase])
    obtain ⟨haccounted, hphase⟩ := h.accounted.look phase looks
    refine ⟨haccounted, hmove.floor_eq.trans h.floor, by simp [hphase], fun _ => ?_⟩
    cases looks with
    | skip => exact hbasins
    | wait => exact hbasins
    | descend => simp [State.sink]
  | arrive phase done =>
    have hrunning : s.arrive.phase ≠ .stranded := by
      rcases phase_arrive_or (s := s) with hphase | hphase <;> simp [hphase]
    exact ⟨h.accounted.arrive flood fits phase done, h.floor, hrunning,
      fun _ => h.basins (by simp [phase])⟩
  | stay phase popped =>
    exact ⟨h.accounted.enter phase popped, h.floor, by simp [State.enter],
      fun _ => h.basins (by simp [phase])⟩
  | @climb slot r rest phase popped other =>
    have hbasins := h.basins (by simp [phase])
    have hr : r ∈ s.frontier.waiting :=
      (Frontier.pop_spec h.accounted.intact popped).2.1.mem_iff.2 List.mem_cons_self
    have low : rank r.level s.floor = .lt :=
      h.floor ▸ apart _ _ _ _ (h.accounted.levels r hr) h.accounted.level other
    have hsettle : (settle rank s.floor r.level s.basins).stranded = false :=
      running_of_settle hbasins (by simp [low])
    have hphase : ((s.enter slot r rest).settleAt rank r.level).phase = .survey := by
      simp only [State.settleAt, State.enter, hsettle]
      rfl
    refine ⟨h.accounted.move flood fits hmove (by simp [hphase]), h.floor, by simp [hphase],
      fun _ => ?_⟩
    exact basins_of_settle hbasins low
  | close phase =>
    have hbasins := h.basins (by simp [phase])
    have hempty : s.basins.isEmpty = false := by simpa using hbasins
    have hsettle : (settle rank s.floor s.level s.basins).stranded = false :=
      running_of_settle hbasins (h.floor ▸ below _ _ h.accounted.level)
    have hphase : (s.close rank).phase = .finished := by
      simp [State.close, hempty, State.settleAt, hsettle]
    exact ⟨h.accounted.close phase (by simp [hphase]), hmove.floor_eq.trans h.floor,
      by simp [hphase], fun hne => absurd hphase hne⟩

/-- A flood comes to its end where levels that are told apart rank before the last level and no level
ranks after it. -/
theorem finished_of_apart (flood : t.Floodable) (fits : t.Fits) : ∃ s u,
    State.start t lastLevel = .ok s ∧ s.run rank t = .ok u ∧ u.phase = .finished := by
  obtain ⟨s, u, hstart, starts, hrun, hmoves, ended, -⟩ := exists_run flood fits rank lastLevel
  have hafloat : Afloat t lastLevel u := by
    clear hrun ended
    induction hmoves with
    | refl => exact starts.afloat
    | tail _ hmove ih => exact hmove.afloat below apart ih flood fits
  rcases result_of_ended ended true with ⟨hphase, -⟩ | ⟨hphase, -⟩
  · exact absurd hphase hafloat.running
  · exact ⟨s, u, hstart, hrun, hphase⟩

end Apart

end LevelTree.Flood
