import LevelTree.Proofs.Flood.Coverage
import LevelTree.Proofs.Flood.Layers

/-!
# The outcomes of a flood

Which of its five answers a flood gives, for any terrain and any total preorder (`verdict`). A terrain
that cannot be flooded is refused before anything happens. A flood is stranded exactly when a position
above the last level can be reached, and positions are reported missing only after a whole flood.
-/

namespace LevelTree.Flood

variable {α : Type} {rank : Ranking α} {t : Terrain α} {s u : State α} {l : Ledger Nat α}
  {p : Position} {lastLevel : α} {settings : Settings α}

/-- The outcome of a flood, and when each answer is given. -/
structure Verdict (t : Terrain α) (settings : Settings α) (lastLevel : α) (outcome : Outcome α) :
    Prop where
  cornerNotZero : outcome.result = .error .cornerNotZero ↔ ∃ c ∈ t.corner, c ≠ 0
  nothingToFlood : outcome.result = .error .nothingToFlood ↔ (∀ c ∈ t.corner, c = 0) ∧
    (t.sides = [] ∨ 0 ∈ t.sides ∨ t.level? (Extents.origin t.sides) = none)
  aboveFloor : outcome.result = .error .aboveFloor ↔
    t.Floodable ∧ t.Exceeds settings.rank lastLevel
  unreached : ∀ n, outcome.result = .error (.unreached n) ↔
    t.Floodable ∧ ¬ t.Exceeds settings.rank lastLevel ∧ settings.validate = true ∧ 0 < n ∧
      n + {p | t.Reachable p}.ncard = Word.plainProduct t.sides
  ok : (∃ tally, outcome.result = .ok tally) ↔
    t.Floodable ∧ ¬ t.Exceeds settings.rank lastLevel ∧
      (settings.validate = true → {p | t.Reachable p}.ncard = Word.plainProduct t.sides)
  /-- Nothing happens on a terrain that cannot be flooded. -/
  silent : ¬ t.Floodable → outcome.log = #[]
  /-- All that a flood without validation does has happened before positions are missed. -/
  whole : ∀ n, outcome.result = .error (.unreached n) → ∃ tally,
    Flood.run t (settings.withValidation false) lastLevel = .ok ⟨outcome.log, .ok tally⟩

/-! ## Terrains that are refused -/

theorem start_of_corner (h : ∃ c ∈ t.corner, c ≠ 0) :
    State.start t lastLevel = .error .cornerNotZero := by
  have hcorner : t.corner.any (· ≠ 0) = true := by simpa using h
  simp only [State.start, hcorner, if_true]
  rfl

theorem start_of_empty (hcorner : ∀ c ∈ t.corner, c = 0) (fits : t.Fits)
    (h : t.sides = [] ∨ 0 ∈ t.sides ∨ t.level? (Extents.origin t.sides) = none) :
    State.start t lastLevel = .error .nothingToFlood := by
  have hany : t.corner.any (· ≠ 0) = false := by simpa using hcorner
  by_cases hsides : t.sides = [] ∨ 0 ∈ t.sides
  · have hempty : (t.sides.isEmpty || t.sides.contains 0) = true := by simpa using hsides
    simp only [State.start, hany, hempty, if_true]
    rfl
  · rw [not_or] at hsides
    have hempty : (t.sides.isEmpty || t.sides.contains 0) = false := by simpa using hsides
    have hnone : t.level? (Extents.origin t.sides) = none := by
      rcases h with h | h | h
      · exact absurd h hsides.1
      · exact absurd h hsides.2
      · exact h
    obtain ⟨blank, hblank, -⟩ := Mask.blank_spec (Word.product_of_lt hsides.2 fits.volume)
    simp only [State.start, hany, hempty, hblank, hnone, bind, Except.bind, liftM, monadLift,
      MonadLift.monadLift, Bool.false_eq_true, if_false]
    rfl

theorem run_of_start {failure : Failure} (hstart : State.start t lastLevel = .error failure)
    (hfault : ∀ fault, failure ≠ .fault fault) :
    Flood.run t settings lastLevel = .ok ⟨#[], .error failure⟩ := by
  rw [Flood.run, hstart]
  cases failure with
  | fault cause => exact absurd rfl (hfault cause)
  | _ => rfl

theorem floodable_iff : t.Floodable ↔ (∀ c ∈ t.corner, c = 0) ∧
    ¬ (t.sides = [] ∨ 0 ∈ t.sides ∨ t.level? (Extents.origin t.sides) = none) := by
  rw [not_or, not_or, ← ne_eq (t.level? _), Option.ne_none_iff_isSome]
  constructor
  · intro h
    exact ⟨h.corner, h.nonempty, h.positive, h.readable⟩
  · rintro ⟨hcorner, hnonempty, hpositive, hreadable⟩
    exact ⟨hcorner, hnonempty, hpositive, hreadable⟩

theorem verdict_of_corner (h : ∃ c ∈ t.corner, c ≠ 0) :
    Verdict t settings lastLevel ⟨#[], .error .cornerNotZero⟩ := by
  have hcorner : ¬ ∀ c ∈ t.corner, c = 0 := by simpa using h
  have flood : ¬ t.Floodable := fun hf => hcorner hf.corner
  constructor
  case cornerNotZero => simpa using h
  case silent => exact fun _ => rfl
  all_goals simp [hcorner, flood]

theorem verdict_of_empty (hcorner : ∀ c ∈ t.corner, c = 0)
    (h : t.sides = [] ∨ 0 ∈ t.sides ∨ t.level? (Extents.origin t.sides) = none) :
    Verdict t settings lastLevel ⟨#[], .error .nothingToFlood⟩ := by
  have flood : ¬ t.Floodable := fun hf => (floodable_iff.1 hf).2 h
  constructor
  case cornerNotZero => simpa using hcorner
  case nothingToFlood => exact ⟨fun _ => ⟨hcorner, h⟩, fun _ => rfl⟩
  case silent => exact fun _ => rfl
  all_goals simp [flood]

/-- What cannot be flooded is refused before anything is logged. -/
theorem exists_refused (flood : ¬ t.Floodable) (fits : t.Fits) (settings : Settings α)
    (lastLevel : α) : ∃ failure, Flood.run t settings lastLevel = .ok ⟨#[], .error failure⟩ ∧
      Verdict t settings lastLevel ⟨#[], .error failure⟩ := by
  by_cases hcorner : ∃ c ∈ t.corner, c ≠ 0
  · exact ⟨_, run_of_start (start_of_corner hcorner) (by simp), verdict_of_corner hcorner⟩
  · have hzero : ∀ c ∈ t.corner, c = 0 := by simpa using hcorner
    rw [floodable_iff, not_and, not_not] at flood
    exact ⟨_, run_of_start (start_of_empty hzero fits (flood hzero)) (by simp),
      verdict_of_empty hzero (flood hzero)⟩

/-! ## Floods that end -/

/-- A finished flood met nothing above the floor. -/
theorem Finished.not_exceeds (order : TotalPreorder rank) (accounted : Accounted t u)
    (phase : u.phase = .finished) (finished : Finished rank t u l) : ¬ t.Exceeds rank u.floor := by
  rintro ⟨p, a, hreach, ha, hgt⟩
  obtain ⟨g, hlast, hheld, hle⟩ := finished.whole
  have hadded : p ∈ u.added := (accounted.mem_added_iff phase).2 hreach
  have hg : p ∈ g.held := hheld ▸ (Ledger.held_perm finished.run).mem_iff.2 hadded
  have hup : t.UpTo rank g.level p := (finished.complete g (List.mem_of_getLast? hlast)).component.mem hg
  exact order.trans _ _ _ (ha.upTo_iff.1 hup) hle hgt

theorem verdict_of_stranded (flood : t.Floodable) (exceeds : t.Exceeds settings.rank lastLevel)
    (log : Array (Event Nat α)) : Verdict t settings lastLevel ⟨log, .error .aboveFloor⟩ where
  cornerNotZero := by simpa using flood.corner
  nothingToFlood := by
    have h := (floodable_iff.1 flood).2
    simp [h]
  aboveFloor := by simp [flood, exceeds]
  unreached := by simp [exceeds]
  ok := by simp [exceeds]
  silent := fun h => absurd flood h
  whole := by simp

section Finished

variable (flood : t.Floodable) (below : ¬ t.Exceeds settings.rank lastLevel) {missing : Nat}
  {tally : Tally} {log : Array (Event Nat α)}
  (hmissing : missing + {p | t.Reachable p}.ncard = Word.plainProduct t.sides)

include flood below hmissing

theorem verdict_of_missing (validate : settings.validate = true) (positive : 0 < missing)
    (whole : Flood.run t (settings.withValidation false) lastLevel = .ok ⟨log, .ok tally⟩) :
    Verdict t settings lastLevel ⟨log, .error (.unreached missing)⟩ where
  cornerNotZero := by simpa using flood.corner
  nothingToFlood := by simp [(floodable_iff.1 flood).2]
  aboveFloor := by simp [below]
  unreached := by
    intro n
    simp only [flood, below, validate, Except.error.injEq, Failure.unreached.injEq,
      not_false_eq_true, true_and]
    omega
  ok := by
    simp only [reduceCtorEq, exists_false, flood, below, validate, not_false_eq_true, true_and,
      forall_const, false_iff]
    omega
  silent := fun h => absurd flood h
  whole := fun _ _ => ⟨tally, whole⟩

theorem verdict_of_ok (fulfilled : settings.validate = true → missing = 0) :
    Verdict t settings lastLevel ⟨log, .ok tally⟩ where
  cornerNotZero := by simpa using flood.corner
  nothingToFlood := by simp [(floodable_iff.1 flood).2]
  aboveFloor := by simp [below]
  unreached := by
    intro n
    simp only [reduceCtorEq, flood, below, not_false_eq_true, true_and, false_iff]
    rintro ⟨hvalidate, hn, hsum⟩
    have := fulfilled hvalidate
    omega
  ok := by
    simp only [Except.ok.injEq, exists_eq', flood, below, not_false_eq_true, true_and, true_iff]
    intro hvalidate
    have := fulfilled hvalidate
    omega
  silent := fun h => absurd flood h
  whole := by simp

/-- Only the number of missing positions is left to be looked at when a flood is finished. -/
theorem verdict_of_finished
    (whole : Flood.run t (settings.withValidation false) lastLevel = .ok ⟨log, .ok tally⟩) :
    Verdict t settings lastLevel ⟨log, if settings.validate ∧ 0 < missing then
      .error (.unreached missing) else .ok tally⟩ := by
  by_cases h : settings.validate = true ∧ 0 < missing
  · rw [if_pos h]
    exact verdict_of_missing flood below hmissing h.1 h.2 whole
  · rw [if_neg h]
    exact verdict_of_ok flood below hmissing fun hvalidate => by simpa [hvalidate] using h

end Finished

/-- Which answer a flood gives: the corner, cells and first level of the terrain are looked at first,
then a position above the last level decides, and then the positions that were not reached. -/
theorem verdict (t : Terrain α) (fits : t.Fits) (settings : Settings α)
    (order : TotalPreorder settings.rank) (lastLevel : α) :
    ∃ outcome, Flood.run t settings lastLevel = .ok outcome ∧
      Verdict t settings lastLevel outcome := by
  by_cases flood : t.Floodable
  · obtain ⟨s, u, l, hstart, hrun, rfl, ⟨phase, accounted, finished⟩ | ⟨phase, stranded⟩⟩ :=
      exists_charted order flood fits lastLevel
    · have hresult : ∀ validate, u.result validate =
          if validate ∧ 0 < u.visited.countUnset then .error (.unreached u.visited.countUnset)
          else .ok u.tally := fun validate => by simp [State.result, phase]
      refine ⟨_, run_eq hstart hrun, ?_⟩
      rw [hresult]
      refine verdict_of_finished flood (finished.not_exceeds order accounted phase)
        (accounted.countUnset_eq phase) ?_
      have hwhole : Flood.run t (settings.withValidation false) u.floor =
          .ok ⟨u.log, u.result false⟩ := run_eq hstart hrun
      rw [hresult] at hwhole
      simpa [Settings.withValidation] using hwhole
    · refine ⟨_, run_eq hstart hrun, ?_⟩
      have hresult : u.result settings.validate = .error .aboveFloor := by
        simp [State.result, phase]
      rw [hresult]
      exact verdict_of_stranded flood stranded.high _
  · obtain ⟨failure, hrun, hverdict⟩ := exists_refused flood fits settings lastLevel
    exact ⟨_, hrun, hverdict⟩

/-- The flood of the parted row goes down and up again, and misses the hole and the cell behind it; over a
floor below the third cell, it is stranded there. -/
theorem verdict_parted : parted.Fits ∧ TotalPreorder (Ranking.ofKey Int.ofNat) ∧
    (∃ outcome, Flood.run parted ⟨Ranking.ofKey Int.ofNat, true⟩ 5 = .ok outcome ∧
      outcome.result = .error (.unreached 2) ∧
      Verdict parted ⟨Ranking.ofKey Int.ofNat, true⟩ 5 outcome) ∧
    ∃ outcome, Flood.run parted ⟨Ranking.ofKey Int.ofNat, true⟩ 2 = .ok outcome ∧
      outcome.result = .error .aboveFloor ∧
      Verdict parted ⟨Ranking.ofKey Int.ofNat, true⟩ 2 outcome := by
  have heval : (Flood.run parted ⟨Ranking.ofKey Int.ofNat, true⟩ 5).map (·.result) =
      .ok (.error (.unreached 2)) := by decide +kernel
  have heval' : (Flood.run parted ⟨Ranking.ofKey Int.ofNat, true⟩ 2).map (·.result) =
      .ok (.error .aboveFloor) := by decide +kernel
  obtain ⟨outcome, hrun, hverdict⟩ := verdict parted floodable_parted.2
    ⟨Ranking.ofKey Int.ofNat, true⟩ (.ofKey _) 5
  obtain ⟨outcome', hrun', hverdict'⟩ := verdict parted floodable_parted.2
    ⟨Ranking.ofKey Int.ofNat, true⟩ (.ofKey _) 2
  rw [hrun] at heval
  rw [hrun'] at heval'
  exact ⟨floodable_parted.2, .ofKey _, ⟨outcome, hrun, Except.ok.inj heval, hverdict⟩,
    outcome', hrun', Except.ok.inj heval', hverdict'⟩

end LevelTree.Flood
