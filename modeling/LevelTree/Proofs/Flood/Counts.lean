import LevelTree.Proofs.Flood.Layers
import LevelTree.Proofs.Protocol

/-!
# Counting regions

Every region that was created is open or was merged into another one (`Ledger.length_holdings_run`),
and a flood creates as many as it has names for (`Starts.length_created`). So the merges of a flood are
known from the names it used and the regions it leaves open (`Starts.merged_add`).
-/

namespace LevelTree

theorem created_concat {ν α : Type} (events : List (Event ν α)) (e : Event ν α) :
    created (events ++ [e]) = created events ++ e.created?.toList := by
  rw [created, List.filterMap_append]
  cases h : e.created? <;> simp [h, created]

namespace Ledger

variable {ν α : Type} [DecidableEq ν] {l m : Ledger ν α} {e : Event ν α} {events : List (Event ν α)}
  {name : ν} {g : Holding α}

theorem length_remove (nodup : l.names.Nodup) (h : l.holding? name = some g) :
    (l.remove name).holdings.length + 1 = l.holdings.length :=
  (Entries.perm_cons_without nodup h).length_eq.symm

theorem length_put_of_some (nodup : l.names.Nodup) (h : l.holding? name = some g) (k : Holding α) :
    (l.put name k).holdings.length = l.holdings.length := length_remove nodup h

theorem length_put_of_none (h : l.holding? name = none) (k : Holding α) :
    (l.put name k).holdings.length = l.holdings.length + 1 := by
  rw [put, remove_of_not_mem (holding?_eq_none_iff.1 h)]
  rfl

/-- An event opens a region if it creates one, and closes a region if it merges it into another. -/
theorem length_holdings (nodup : l.names.Nodup) (h : l.apply e = some m) :
    m.holdings.length + (if e.isMerge then 1 else 0) =
      l.holdings.length + e.created?.toList.length := by
  cases e with
  | floor name level | create name level =>
    simp only [apply] at h
    split at h
    next hnone =>
      cases h
      exact length_put_of_none hnone (.ofLevel level)
    next => cases h
  | add name p =>
    obtain ⟨g, hg, rfl⟩ := Option.map_eq_some_iff.1 h
    exact length_put_of_some nodup hg (g.add p)
  | raise name level =>
    obtain ⟨g, hg, rfl⟩ := Option.map_eq_some_iff.1 h
    exact length_put_of_some nodup hg (g.raise level)
  | emit name =>
    obtain ⟨g, hg, rfl⟩ := Option.map_eq_some_iff.1 h
    exact length_put_of_some nodup hg g.settled
  | merge name other =>
    obtain ⟨g, hg, h⟩ := Option.bind_eq_some_iff.1 h
    obtain ⟨k, hk, rfl⟩ := Option.map_eq_some_iff.1 h
    have hput := length_put_of_some (l := l.remove other) (Entries.nodup_without nodup) hk (k.merge g)
    have hremove := length_remove nodup hg
    simp only [Event.isMerge, Event.created?, if_true, Option.toList_none, List.length_nil]
    omega

/-- Every region that was created is open or was merged into another one. -/
theorem length_holdings_run (nodup : l.names.Nodup) (h : l.run events = some m) :
    m.holdings.length + events.countP Event.isMerge =
      l.holdings.length + (created events).length := by
  induction events generalizing l with
  | nil =>
    obtain rfl : l = m := by simpa using h
    rfl
  | cons e events ih =>
    rw [run_cons, Option.bind_eq_some_iff] at h
    obtain ⟨k, hk, hm⟩ := h
    have hstep := length_holdings nodup hk
    have hrest := ih (apply_perm nodup hk).1 hm
    have hcreated : (created (e :: events)).length =
        e.created?.toList.length + (created events).length := by
      rw [created, List.filterMap_cons]
      cases e.created? <;> simp [created, Nat.add_comm]
    rw [List.countP_cons, hcreated]
    omega

end Ledger

namespace Flood

variable {α : Type} {rank : Ranking α} {t : Terrain α} {s u : State α} {level lastLevel : α}
  {l : Ledger Nat α}

theorem created_settle {floor : α} {basins : List (Basin α)} :
    created (settle rank floor level basins).events = [] := by
  induction basins with
  | nil => rfl
  | cons b rest ih =>
    simp only [settle]
    split
    · rfl
    · rfl
    · simpa [created, Event.created?] using ih

theorem created_settleAt : created (s.settleAt rank level).log.toList = created s.log.toList := by
  have hnone : created (settle rank s.floor level s.basins).events = [] := created_settle
  simp only [created] at hnone
  simp [created, hnone]

/-- Each region that a move creates takes the next name. -/
theorem Moves.length_created (moves : Moves rank t s u)
    (h : (created s.log.toList).length = s.nextName) :
    (created u.log.toList).length = u.nextName := by
  cases moves with
  | look _ _ looks =>
    cases looks with
    | skip => exact h
    | wait => exact h
    | descend =>
      rw [State.log_sink, Array.toList_push, created_concat, List.length_append, h]
      rfl
  | arrive =>
    rw [State.log_arrive, Array.toList_push, created_concat, List.length_append, h]
    rfl
  | stay => exact h
  | climb =>
    rw [created_settleAt]
    exact h
  | close =>
    unfold State.close
    split
    · rw [State.log_tell, Array.toList_push, created_concat, List.length_append, h]
      rfl
    · rw [created_settleAt]
      exact h

theorem Starts.length_created (hs : Starts t lastLevel s)
    (moves : Relation.ReflTransGen (Moves rank t) s u) :
    (created u.log.toList).length = u.nextName := by
  induction moves with
  | refl =>
    rw [hs.log, hs.nextName]
    rfl
  | tail _ hmove ih => exact hmove.length_created ih

/-- The names that a flood has used are those of the regions that were merged and of those that are
open. -/
theorem Starts.merged_add (hs : Starts t lastLevel s)
    (moves : Relation.ReflTransGen (Moves rank t) s u)
    (hl : Ledger.empty.run u.log.toList = some l) :
    u.tally.merged + l.holdings.length = u.nextName := by
  have hlength := Ledger.length_holdings_run Ledger.nodup_empty hl
  rw [hs.length_created moves, Array.countP_toList] at hlength
  have hmerged : u.tally.merged = u.log.countP Event.isMerge := u.counts_of.merged
  have hempty : (Ledger.empty : Ledger Nat α).holdings.length = 0 := rfl
  omega

end Flood

end LevelTree
