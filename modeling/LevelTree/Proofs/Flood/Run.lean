import LevelTree.Proofs.Flood.Account

/-!
# Runs as chains of moves

A flood that is accounted for can always take its next step, and so its run comes to an end. The
run is a chain of moves from its start (`exists_run`).
-/

namespace LevelTree.Flood

variable {α : Type} {rank : Ranking α} {t : Terrain α} {s : State α}

namespace State

/-- A survey with a neighbour left looks at it and goes on. -/
theorem survey_of_left (left : s.walk.hasNext = true) :
    s.survey rank t = (s.examine rank t).bind (·.survey rank t) := by
  rw [survey, if_pos left]
  split
  next hexamine => rw [hexamine]; rfl
  next hexamine => rw [hexamine]; rfl

theorem survey_of_done (done : s.walk.hasNext = false) : s.survey rank t = .ok s.arrive := by
  rw [survey, if_neg (by simp [done])]

theorem run_of_ended (ended : s.ended = true) : s.run rank t = .ok s := by
  rw [run, dif_pos ended]

/-- A flood that is not over takes a tick and goes on. -/
theorem run_of_running (running : s.ended = false) :
    s.run rank t = (s.tick rank t).bind (·.run rank t) := by
  rw [run, dif_neg (by simp [running])]
  split
  next htick => rw [htick]; rfl
  next htick => rw [htick]; rfl

end State

/-- What a flood starts from. -/
structure Starts (t : Terrain α) (lastLevel : α) (s : State α) : Prop where
  accounted : Accounted t s
  phase : s.phase = .survey
  frontier : s.frontier = .empty
  floor : s.floor = lastLevel
  basins : s.basins = [⟨1, s.level⟩]
  nextName : s.nextName = 2
  log : s.log = #[.floor 0 lastLevel, .create 1 s.level]

/-- Nothing was seen where nothing is marked. -/
theorem tallied_unmarked {m : Mask} (unmarked : ∀ p, ¬ m.Marks p)
    (count : m.countUnset = m.extents.volume) : Tallied t m [] [] where
  marks := fun p => by simp [unmarked]
  nodup := .nil
  count := count
  reachable := fun p hp => absurd hp (unmarked p)
  surrounded := by simp

/-- A flood starts wherever the terrain can be flooded. -/
theorem exists_start (flood : t.Floodable) (volume : Word.plainProduct t.sides < Word.limit)
    (floor : α) : ∃ s, State.start t floor = .ok s ∧ Starts t floor s := by
  obtain ⟨blank, hblank, hsides, hvolume, hfull, hunmarked, hunset⟩ :=
    Mask.blank_spec (Word.product_of_lt flood.positive volume)
  have hinside : Extents.Inside t.sides (Extents.origin t.sides) := Extents.inside_origin flood.positive
  obtain ⟨level, hlevel⟩ := Option.isSome_iff_exists.1 flood.readable
  have hindex : blank.extents.index? (Extents.origin t.sides) = some 0 := by
    rw [Extents.index?, hsides]
    exact Extents.horner_origin flood.positive
  obtain ⟨visited, hset, marked⟩ := Mask.exists_adds hfull hindex (hunmarked _)
  have hreach : t.Reachable (Extents.origin t.sides) :=
    ⟨⟨hinside, flood.readable⟩, .refl⟩
  have hcorner : t.corner.any (· ≠ 0) = false := by
    simpa using flood.corner
  have hempty : (t.sides.isEmpty || t.sides.contains 0) = false := by
    simpa using ⟨flood.nonempty, flood.positive⟩
  refine ⟨{
    visited, floor, position := Extents.origin t.sides, level
    frontier := .empty
    basins := [⟨1, level⟩]
    walk := .start t.sides
    nextName := 2
    peak := 0
    phase := .survey
    log := #[.floor 0 floor, .create 1 level]
    counts := ⟨0, 0, 0⟩
    counts_of := (Counts.of_empty.tell (.floor 0 floor)).tell (.create 1 level) }, ?_, ?_⟩
  · simp only [State.start, hcorner, hempty, hblank, hlevel, hset, bind, Except.bind, pure, Except.pure,
      liftM, monadLift, MonadLift.monadLift, Bool.false_eq_true, if_false]
  · exact {
      accounted := {
        walk := rfl
        sides := marked.extents ▸ hsides
        full := marked.full
        intact := Frontier.intact_empty
        tallied := (tallied_unmarked hunmarked (by rw [hunset, hvolume])).see marked (hunmarked _)
          hreach (.refl _)
        origin := (marked.marks _).2 (.inl rfl)
        level := hlevel
        levels := by simp
        resumable := by simp
        current := fun _ => examined_zero
        waits := trivial }
      phase := rfl
      frontier := rfl
      floor := rfl
      basins := rfl
      nextName := rfl
      log := rfl }

/-- A survey is a chain of looks with an arrival at its end. -/
theorem Accounted.survey (rank : Ranking α) (h : Accounted t s) (flood : t.Floodable) (fits : t.Fits)
    (phase : s.phase = .survey) :
    ∃ u, s.survey rank t = .ok u ∧ Relation.ReflTransGen (Moves rank t) s u ∧ Accounted t u := by
  fun_induction State.survey rank t s with
  | case1 s left fault hexamine =>
    obtain ⟨u, hu, -⟩ := h.exists_looks rank flood fits phase left
    cases hu.symm.trans hexamine
  | case2 s left u hexamine ih =>
    obtain ⟨v, hv, looks⟩ := h.exists_looks rank flood fits phase left
    obtain rfl : v = u := by simpa using hv.symm.trans hexamine
    obtain ⟨haccounted, hphase⟩ := h.look phase looks
    obtain ⟨w, hw, hmoves, hlast⟩ := ih haccounted hphase
    exact ⟨w, hw, .head (.look phase left looks) hmoves, hlast⟩
  | case3 s done =>
    have done : s.walk.hasNext = false := by simpa using done
    exact ⟨_, rfl, .single (.arrive phase done), h.arrive flood fits phase done⟩

/-- A flood that goes on can take its next step, and the step is a chain of moves. -/
theorem Accounted.tick (rank : Ranking α) (h : Accounted t s) (flood : t.Floodable) (fits : t.Fits)
    (running : s.ended = false) :
    ∃ u, s.tick rank t = .ok u ∧ Relation.ReflTransGen (Moves rank t) s u ∧
      (u.phase ≠ .stranded → Accounted t u) := by
  unfold State.tick
  cases phase : s.phase with
  | survey =>
    obtain ⟨u, hu, hmoves, haccounted⟩ := h.survey rank flood fits phase
    exact ⟨u, hu, hmoves, fun _ => haccounted⟩
  | rise =>
    have hwaits : s.frontier.waiting ≠ [] := by
      have := h.waits
      rwa [phase] at this
    obtain ⟨slot, r, rest, popped⟩ := Frontier.pop_eq_some rank hwaits
    refine ⟨_, rfl, ?_⟩
    have hmove : Moves rank t s (s.rise rank) := by
      unfold State.rise
      rw [popped]
      dsimp only
      split
      next same => exact .stay phase popped same
      next other => exact .climb phase popped other
    exact ⟨.single hmove, h.move flood fits hmove⟩
  | close =>
    have hmove : Moves rank t s (s.close rank) := .close phase
    exact ⟨_, rfl, .single hmove, h.move flood fits hmove⟩
  | finished => simp [State.ended, phase] at running
  | stranded => simp [State.ended, phase] at running

/-- The run of a flood is a chain of moves up to its end. -/
theorem Accounted.run (rank : Ranking α) (h : s.phase ≠ .stranded → Accounted t s)
    (flood : t.Floodable) (fits : t.Fits) :
    ∃ u, s.run rank t = .ok u ∧ Relation.ReflTransGen (Moves rank t) s u ∧ u.ended = true ∧
      (u.phase ≠ .stranded → Accounted t u) := by
  fun_induction State.run rank t s with
  | case1 s ended => exact ⟨s, rfl, .refl, ended, h⟩
  | case2 s going fault htick =>
    have going : s.ended = false := by simpa using going
    have hrunning : s.phase ≠ .stranded := by rintro hs; simp [State.ended, hs] at going
    obtain ⟨u, hu, -⟩ := (h hrunning).tick rank flood fits going
    cases hu.symm.trans htick
  | case3 s going u htick ih =>
    have going : s.ended = false := by simpa using going
    have hrunning : s.phase ≠ .stranded := by rintro hs; simp [State.ended, hs] at going
    obtain ⟨v, hv, hmoves, hnext⟩ := (h hrunning).tick rank flood fits going
    obtain rfl : v = u := by simpa using hv.symm.trans htick
    obtain ⟨w, hw, hrest, hlast⟩ := ih hnext
    exact ⟨w, hw, hmoves.trans hrest, hlast⟩

/-- From its start, a flood runs to its end in a chain of moves. -/
theorem exists_run (flood : t.Floodable) (fits : t.Fits) (rank : Ranking α) (lastLevel : α) :
    ∃ s u, State.start t lastLevel = .ok s ∧ Starts t lastLevel s ∧ s.run rank t = .ok u ∧
      Relation.ReflTransGen (Moves rank t) s u ∧ u.ended = true ∧
      (u.phase ≠ .stranded → Accounted t u) := by
  obtain ⟨s, hstart, starts⟩ := exists_start flood fits.volume lastLevel
  obtain ⟨u, hrun, hmoves, hended, haccounted⟩ :=
    Accounted.run rank (fun _ => starts.accounted) flood fits
  exact ⟨s, u, hstart, starts, hrun, hmoves, hended, haccounted⟩

end LevelTree.Flood
