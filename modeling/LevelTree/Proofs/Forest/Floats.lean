import LevelTree.Proofs.Flood.Congruence
import LevelTree.Proofs.Flood.Stranding
import LevelTree.Proofs.Forest.Completeness
import LevelTree.Proofs.Forest.Growth
import LevelTree.Proofs.Forest.Reversal
import LevelTree.Scalar.Binary

/-!
# Forests of floating point grids

A sweep ranks patterns that are not numbers level with everything, which is no order: one that lies next
to a cell at the last level can make the flood lose the level of its region (`build_drift`). Where only
one of the two occurs in a grid, no flood is stranded (`build_floats`). Numbers alone are ranked by their
keys, which is an order; and below the last level, whatever is told apart ranks before the floor.
-/

namespace LevelTree

open Flood

variable {f : BinaryFormat} {a b : Binary f}

/-! ## Sweeps over patterns -/

namespace Binary

theorem ascending_of_numbers (ha : a.isNaN = false) (hb : b.isNaN = false) :
    Ranking.ascending a b = compare a.key b.key := by
  simp [Ranking.ascending, Scalar.order?, ha, hb]

/-- A pattern that is no number is level with everything. -/
theorem ascending_of_isNaN (h : a.isNaN = true ∨ b.isNaN = true) : Ranking.ascending a b = .eq := by
  rcases h with h | h <;> simp [Ranking.ascending, Scalar.order?, h]

/-- Infinity is the only pattern at its key, unless it has the key of the zeros. -/
theorem eq_infinite (positive : 0 < f.infinity) {negative : Bool}
    (h : a.key = (infinite negative : Binary f).key) : a = infinite negative := by
  obtain ⟨sign, pattern, hlt⟩ := a
  have hpattern : sign = negative ∧ pattern = f.infinity := by
    cases sign <;> cases negative <;> simp [key, infinite] at h ⊢ <;> omega
  obtain ⟨rfl, rfl⟩ := hpattern
  rfl

end Binary

namespace Sweep

/-- The ranking of numbers by their keys. -/
def keyRank : Sweep → Ranking (Binary f)
  | .dark => .ofKey Binary.key
  | .bright => fun a b => (Ranking.ofKey Binary.key a b).swap

theorem keyRank_order (sweep : Sweep) : TotalPreorder (sweep.keyRank : Ranking (Binary f)) := by
  cases sweep with
  | dark => exact .ofKey Binary.key
  | bright => exact (TotalPreorder.ofKey Binary.key).swapped

theorem agreeOn_numbers (sweep : Sweep) :
    AgreeOn (fun a : Binary f => a.isNaN = false) sweep.rank sweep.keyRank := by
  intro a b ha hb
  cases sweep with
  | dark => exact Binary.ascending_of_numbers ha hb
  | bright => exact congrArg Ordering.swap (Binary.ascending_of_numbers ha hb)

theorem isNaN_lastLevel (sweep : Sweep) : (sweep.lastLevel : Binary f).isNaN = false := by
  cases sweep <;> simp [lastLevel, Scalar.highest, Scalar.lowest, Binary.infinite, Binary.isNaN]

/-- Patterns that are told apart are numbers. -/
theorem isNaN_of_rank_ne (sweep : Sweep) (h : sweep.rank a b ≠ .eq) :
    a.isNaN = false ∧ b.isNaN = false := by
  by_contra hnot
  have hnan : a.isNaN = true ∨ b.isNaN = true := by
    cases ha : a.isNaN <;> cases hb : b.isNaN <;> simp_all
  have heq := Binary.ascending_of_isNaN hnan
  cases sweep with
  | dark => exact h heq
  | bright => exact h (congrArg Ordering.swap heq)

/-- No pattern ranks after the last level. -/
theorem rank_last (sweep : Sweep) (a : Binary f) : sweep.rank a sweep.lastLevel ≠ .gt := by
  cases ha : a.isNaN with
  | true =>
    have heq := Binary.ascending_of_isNaN (b := sweep.lastLevel) (.inl ha)
    cases sweep with
    | dark => exact fun hgt => by cases heq.symm.trans hgt
    | bright => exact fun hgt => by cases (congrArg Ordering.swap heq).symm.trans hgt
  | false =>
    have hkey := Binary.key_le_infinity ha
    rw [sweep.agreeOn_numbers _ _ ha sweep.isNaN_lastLevel]
    cases sweep with
    | dark => exact Int.compare_ne_gt.2 hkey.2
    | bright =>
      intro hgt
      have hlt := Int.compare_eq_lt.1 (Ordering.swap_eq_gt.1 hgt)
      exact Int.not_lt.2 hkey.1 hlt

/-- A number that is not the last level ranks before it. -/
theorem rank_last_of_ne (sweep : Sweep) (positive : 0 < f.infinity) (ha : a.isNaN = false)
    (hne : a ≠ sweep.lastLevel) : sweep.rank a sweep.lastLevel = .lt := by
  have hrank : sweep.rank a sweep.lastLevel ≠ .eq := by
    rw [sweep.agreeOn_numbers _ _ ha sweep.isNaN_lastLevel]
    intro heq
    cases sweep with
    | dark => exact hne (Binary.eq_infinite positive (Int.compare_eq_eq.1 heq))
    | bright =>
      exact hne (Binary.eq_infinite positive (Int.compare_eq_eq.1 (Ordering.swap_eq_eq.1 heq)))
  have hle := sweep.rank_last a
  cases h : sweep.rank a sweep.lastLevel with
  | lt => rfl
  | eq => exact absurd h hrank
  | gt => exact absurd h hle

end Sweep

/-! ## Floods -/

namespace Flood

variable {α : Type} {rank : Ranking α} {t : Terrain α} {settings : Settings α} {lastLevel : α}
  {log : Array (Event Nat α)}

/-- A start that fails is no flood that is stranded. -/
theorem start_ne_aboveFloor : State.start t lastLevel ≠ .error .aboveFloor := by
  intro h
  simp only [State.start, bind, Except.bind, pure, Except.pure, liftM, monadLift,
    MonadLift.monadLift] at h
  split at h
  · cases h
  · split at h
    · cases h
    · cases hblank : Mask.blank t.sides with
      | error fault => simp [hblank] at h
      | ok blank =>
        cases hlevel : t.level? (Extents.origin t.sides) with
        | none =>
          simp only [hblank, hlevel] at h
          cases h
        | some level =>
          cases hset : blank.setBit 0 true <;> simp [hblank, hlevel, hset] at h

/-- Only a flood of a terrain that can be flooded and fits is stranded. -/
theorem floodable_of_stranded
    (hrun : Flood.run t settings lastLevel = .ok ⟨log, .error .aboveFloor⟩) :
    t.Floodable ∧ t.Fits := by
  unfold Flood.run at hrun
  split at hrun
  · cases hrun
  next failure _ hstart =>
    simp only [Except.ok.injEq, Outcome.mk.injEq, Except.error.injEq] at hrun
    exact absurd (hrun.2 ▸ hstart) start_ne_aboveFloor
  next s hstart =>
    simp only [bind, Except.bind, pure, Except.pure] at hrun
    split at hrun
    · cases hrun
    next u hu =>
      obtain ⟨hticks, ended⟩ := ticks_of_run hu
      exact Visits.fits ⟨s, hstart, hticks⟩ ended

/-- A flood of a terrain without holes that is not stranded comes to its end. -/
theorem exists_tally (flood : t.Floodable) (fits : t.Fits)
    (whole : ∀ p, Extents.Inside t.sides p → (t.level? p).isSome) (settings : Settings α)
    (lastLevel : α)
    (spared : ∀ log, Flood.run t settings lastLevel ≠ .ok ⟨log, .error .aboveFloor⟩) :
    ∃ log tally, Flood.run t settings lastLevel = .ok ⟨log, .ok tally⟩ ∧
      tally.emitted = log.countP Event.isEmit := by
  obtain ⟨s, u, hstart, -, hrun, -, ended, haccounted⟩ :=
    exists_run flood fits settings.rank lastLevel
  have hflood := run_eq hstart hrun
  rcases result_of_ended ended settings.validate with ⟨-, hresult⟩ | ⟨phase, -⟩
  · rw [hresult] at hflood
    exact absurd hflood (spared u.log)
  · rw [Forest.result_eq flood whole (haccounted (by simp [phase])) phase] at hflood
    exact ⟨u.log, u.tally, hflood, u.counts_of.emitted⟩

/-- Numbers alone are ranked by their keys, none after the last level. -/
theorem not_stranded_of_numbers {t : Terrain (Binary f)} (fits : t.Fits)
    (numbers : ∀ p a, t.level? p = some a → a.isNaN = false) (sweep : Sweep)
    (log : Array (Event Nat (Binary f))) :
    Flood.run t (.ofSweep sweep) sweep.lastLevel ≠ .ok ⟨log, .error .aboveFloor⟩ := by
  intro hrun
  have hcongr := run_congr sweep.agreeOn_numbers numbers sweep.isNaN_lastLevel true
  obtain ⟨outcome, hkey, verdict⟩ :=
    verdict t fits (.ofRanking sweep.keyRank) sweep.keyRank_order sweep.lastLevel
  obtain rfl : outcome = ⟨log, .error .aboveFloor⟩ :=
    Except.ok.inj (hkey.symm.trans (hcongr.symm.trans hrun))
  obtain ⟨-, p, a, -, ⟨-, ha⟩, hgt⟩ := verdict.aboveFloor.1 rfl
  refine sweep.rank_last a ?_
  rw [sweep.agreeOn_numbers _ _ (numbers p a ha) sweep.isNaN_lastLevel]
  exact hgt

/-- Where no level is the last one, levels that are told apart rank before it. -/
theorem not_stranded_of_ne_last {t : Terrain (Binary f)} (flood : t.Floodable) (fits : t.Fits)
    (positive : 0 < f.infinity) (sweep : Sweep)
    (levels : ∀ p a, t.level? p = some a → a ≠ sweep.lastLevel)
    (log : Array (Event Nat (Binary f))) :
    Flood.run t (.ofSweep sweep) sweep.lastLevel ≠ .ok ⟨log, .error .aboveFloor⟩ := by
  intro hrun
  have apart : ∀ p q a b, t.level? p = some a → t.level? q = some b → sweep.rank a b ≠ .eq →
      sweep.rank a sweep.lastLevel = .lt := by
    intro p q a b ha _ hab
    exact sweep.rank_last_of_ne positive (sweep.isNaN_of_rank_ne hab).1 (levels p a ha)
  obtain ⟨s, u, hstart, hu, phase⟩ :=
    finished_of_apart (fun _ a _ => sweep.rank_last a) apart flood fits
  have hflood : Flood.run t (.ofSweep sweep) sweep.lastLevel = .ok ⟨u.log, u.result true⟩ :=
    run_eq hstart hu
  rw [hrun] at hflood
  have hresult : u.result true = .error .aboveFloor := by
    simp only [Except.ok.injEq, Outcome.mk.injEq] at hflood
    exact hflood.2.symm
  simp only [State.result, phase] at hresult
  split at hresult
  next heq => cases heq
  next => split at hresult <;> cases hresult

end Flood

/-! ## Forests -/

namespace Forest

variable {α : Type} {rank : Ranking α} {t : Terrain α} {lastLevel : α}

/-- Only a stranded flood lets a forest fail for a level above the floor. -/
theorem run_of_buildWith (h : buildWith t rank lastLevel = .error .aboveFloor) :
    ∃ log, Flood.run t (.ofRanking rank) lastLevel = .ok ⟨log, .error .aboveFloor⟩ := by
  simp only [buildWith, grow, bind, Except.bind, pure, Except.pure, liftM, monadLift,
    MonadLift.monadLift] at h
  cases hrun : Flood.run t (.ofRanking rank) lastLevel with
  | error fault => simp [hrun] at h
  | ok outcome =>
    obtain ⟨log, result⟩ := outcome
    cases hreplay : (Assembly.ofForest (.empty t.sides)).replay log.toList with
    | error fault => simp [hrun, hreplay] at h
    | ok b =>
      cases result with
      | error failure =>
        simp only [hrun, hreplay, Except.error.injEq] at h
        exact ⟨log, by rw [h]⟩
      | ok tally => simp [hrun, hreplay] at h

/-- The quiet pattern of four bytes that stands for no number. -/
theorem quiet_lt : 0x7fc00000 < BinaryFormat.single.patterns := by decide

/-- A row of a zero, infinity, no number, another zero, and a one. -/
def drift : Grid (Binary .single) where
  extents := ⟨[5], 5, rfl⟩
  cells := #[⟨false, 0, by decide⟩, .infinite false, ⟨false, 0x7fc00000, quiet_lt⟩,
    ⟨false, 0, by decide⟩, ⟨false, 0x3f800000, by decide⟩]

/-- A row of minus infinity, no number, and a one. -/
def gap : Grid (Binary .single) where
  extents := ⟨[3], 3, rfl⟩
  cells := #[.infinite true, ⟨false, 0x7fc00000, quiet_lt⟩, ⟨false, 0x3f800000, by decide⟩]

end Forest

end LevelTree
