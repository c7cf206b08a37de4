import LevelTree.Proofs.Flood.Run

/-!
# The states of a run

A run visits the states between its ticks. What is visited is reached from the start by a chain of
moves, so that what the moves keep holds of it (`Visits.cases`). Nothing has to be asked of the size
of a terrain whose states are looked at: where its cells cannot be counted a flood does not start, and
where its neighbours cannot be counted a flood that starts does not come past its first tick.
-/

namespace LevelTree.Flood

variable {α : Type} {rank : Ranking α} {t : Terrain α} {s u : State α} {lastLevel : α}

/-- A flood that goes on takes its next step. -/
def Ticks (rank : Ranking α) (t : Terrain α) (s u : State α) : Prop :=
  s.ended = false ∧ s.tick rank t = .ok u

/-- A flood of the terrain comes to the state, between two ticks or at its start or end. -/
def Visits (rank : Ranking α) (t : Terrain α) (lastLevel : α) (s : State α) : Prop :=
  ∃ s₀, State.start t lastLevel = .ok s₀ ∧ Relation.ReflTransGen (Ticks rank t) s₀ s

/-! ## Starts -/

theorem volume_lt_of_blank {m : Mask} (h : Mask.blank t.sides = .ok m) :
    Word.plainProduct t.sides < Word.limit := by
  simp only [Mask.blank, bind, Except.bind] at h
  split at h
  · cases h
  next e he =>
    rw [← Extents.sides_ofSides he, ← Extents.volume_eq_plainProduct]
    exact Extents.volume_lt e

/-- A flood starts only where the terrain can be flooded and its cells can be counted, with no
neighbour looked at and nothing waiting so far. -/
theorem floodable_of_start (hstart : State.start t lastLevel = .ok s) :
    t.Floodable ∧ Word.plainProduct t.sides < Word.limit ∧ s.walk = .start t.sides ∧
      s.peak = 0 := by
  simp only [State.start, bind, Except.bind, pure, Except.pure, liftM, monadLift,
    MonadLift.monadLift] at hstart
  split at hstart
  · cases hstart
  next hcorner =>
  split at hstart
  · cases hstart
  next hsides =>
  cases hblank : Mask.blank t.sides with
  | error fault => simp [hblank] at hstart
  | ok blank =>
    cases hlevel : t.level? (Extents.origin t.sides) with
    | none =>
      simp only [hblank, hlevel] at hstart
      cases hstart
    | some level =>
      simp only [List.any_eq_true, decide_eq_true_eq, not_exists, not_and, not_not] at hcorner
      simp only [Bool.or_eq_true, List.isEmpty_iff, List.contains_eq_mem, decide_eq_true_eq,
        not_or] at hsides
      refine ⟨⟨hcorner, hsides.1, hsides.2, by simp [hlevel]⟩, volume_lt_of_blank hblank, ?_⟩
      cases hset : blank.setBit 0 true with
      | error fault => simp [hblank, hlevel, hset] at hstart
      | ok visited =>
        simp only [hblank, hlevel, hset, Except.ok.injEq] at hstart
        rw [← hstart]
        exact ⟨rfl, rfl⟩

theorem starts_of_start (hstart : State.start t lastLevel = .ok s) : Starts t lastLevel s := by
  obtain ⟨flood, volume, -⟩ := floodable_of_start hstart
  obtain ⟨s₀, hstart₀, starts⟩ := exists_start flood volume lastLevel
  rw [hstart, Except.ok.injEq] at hstart₀
  exact hstart₀ ▸ starts

/-! ## Cursors -/

theorem walk_of_discover {p : Position} {i : Nat} {level : α}
    (h : s.discover rank p i level = .ok u) : u.walk = s.walk ∨ u.walk = s.walk.seek 0 := by
  simp only [State.discover, bind, Except.bind] at h
  split at h
  · cases h
  · split at h <;> split at h <;> cases h
    · exact .inl rfl
    · exact .inr rfl

/-- A look at a neighbour leaves a cursor that is a word. -/
theorem cursor_lt_of_examine (h : s.examine rank t = .ok u) : u.walk.cursor < Word.limit := by
  simp only [State.examine, bind, Except.bind] at h
  split at h
  · cases h
  next v hnext =>
  have hcursor : v.2.cursor < Word.limit := by
    unfold Walk.next at hnext
    split at hnext <;> cases hnext
    next hadd _ =>
      obtain ⟨hlt, heq⟩ := Word.add_eq_ok.1 hadd
      exact heq ▸ hlt
  split at h
  · split at h
    · cases h
    next found hunseen =>
      cases found with
      | none => cases h; exact hcursor
      | some found =>
        rcases walk_of_discover h with hwalk | hwalk <;> rw [hwalk]
        · exact hcursor
        · exact (by decide : 0 < Word.limit)
  · cases h
    exact hcursor

/-- A survey comes to its end only where the neighbours can be counted. -/
theorem bound_lt_of_survey (h : s.survey rank t = .ok u) (hcursor : s.walk.cursor < Word.limit) :
    s.walk.bound < Word.limit := by
  fun_induction State.survey rank t s with
  | case1 => cases h
  | case2 s _ v hexamine ih =>
    rw [← (State.examine_marks hexamine).1]
    exact ih h (cursor_lt_of_examine hexamine)
  | case3 s done =>
    have hbound : s.walk.bound ≤ s.walk.cursor := by simpa [Walk.hasNext] using done
    exact Nat.lt_of_le_of_lt hbound hcursor

/-- A flood comes past its first tick only on a terrain whose cells and neighbours can be counted. -/
theorem fits_of_tick (starts : Starts t lastLevel s) (volume : Word.plainProduct t.sides < Word.limit)
    (hwalk : s.walk = .start t.sides) (htick : s.tick rank t = .ok u) : t.Fits where
  volume := volume
  neighbors := by
    rw [State.tick, starts.phase] at htick
    have hbound := bound_lt_of_survey htick (by rw [hwalk]; exact (by decide : 0 < Word.limit))
    rw [hwalk] at hbound
    exact hbound

/-! ## Visits -/

/-- Ticks from an accounted state are chains of moves. -/
theorem moves_of_ticks (flood : t.Floodable) (fits : t.Fits) (accounted : Accounted t s)
    (ticks : Relation.ReflTransGen (Ticks rank t) s u) :
    Relation.ReflTransGen (Moves rank t) s u ∧ (u.phase ≠ .stranded → Accounted t u) := by
  induction ticks with
  | refl => exact ⟨.refl, fun _ => accounted⟩
  | @tail v w _ htick ih =>
    obtain ⟨running, htick⟩ := htick
    have hphase : v.phase ≠ .stranded := by
      intro hstranded
      simp [State.ended, hstranded] at running
    obtain ⟨w', hw', hmoves, haccounted⟩ := (ih.2 hphase).tick rank flood fits running
    obtain rfl : w' = w := by simpa using hw'.symm.trans htick
    exact ⟨ih.1.trans hmoves, haccounted⟩

/-- A visited state is the start, or is reached from it by moves over a terrain that fits. -/
theorem Visits.cases (visits : Visits rank t lastLevel s) : ∃ s₀, Starts t lastLevel s₀ ∧
    t.Floodable ∧ (s = s₀ ∨ t.Fits ∧ Relation.ReflTransGen (Moves rank t) s₀ s) := by
  obtain ⟨s₀, hstart, ticks⟩ := visits
  have starts := starts_of_start hstart
  obtain ⟨flood, volume, hwalk, -⟩ := floodable_of_start hstart
  refine ⟨s₀, starts, flood, ?_⟩
  rcases ticks.cases_head with rfl | ⟨u, ⟨-, htick⟩, -⟩
  · exact .inl rfl
  · have fits := fits_of_tick starts volume hwalk htick
    exact .inr ⟨fits, (moves_of_ticks flood fits starts.accounted ticks).1⟩

/-- A flood is over only on a terrain that can be flooded and fits. -/
theorem Visits.fits (visits : Visits rank t lastLevel s) (ended : s.ended = true) :
    t.Floodable ∧ t.Fits := by
  obtain ⟨s₀, starts, flood, rfl | ⟨fits, -⟩⟩ := visits.cases
  · simp [State.ended, starts.phase] at ended
  · exact ⟨flood, fits⟩

/-- The states between the ticks of a run are visited, and so is its end. -/
theorem ticks_of_run (hrun : s.run rank t = .ok u) :
    Relation.ReflTransGen (Ticks rank t) s u ∧ u.ended = true := by
  fun_induction State.run rank t s with
  | case1 s ended =>
    cases hrun
    exact ⟨.refl, ended⟩
  | case2 => cases hrun
  | case3 s going v htick ih =>
    obtain ⟨hticks, hended⟩ := ih hrun
    exact ⟨.head ⟨by simpa using going, htick⟩ hticks, hended⟩

/-- A flood that answers was refused, or answers with a state that it comes to in the end. -/
theorem visits_of_run {settings : Settings α} {outcome : Outcome α}
    (hrun : Flood.run t settings lastLevel = .ok outcome) : outcome.log = #[] ∨
      ∃ u, Visits settings.rank t lastLevel u ∧ u.ended = true ∧ outcome.log = u.log := by
  unfold Flood.run at hrun
  split at hrun
  · cases hrun
  · cases hrun
    exact .inl rfl
  next s hstart =>
    simp only [bind, Except.bind, pure, Except.pure] at hrun
    split at hrun
    · cases hrun
    next u hu =>
      cases hrun
      obtain ⟨hticks, hended⟩ := ticks_of_run hu
      exact .inr ⟨u, ⟨s, hstart, hticks⟩, hended, rfl⟩

end LevelTree.Flood
