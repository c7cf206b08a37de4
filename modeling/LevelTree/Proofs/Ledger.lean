import LevelTree.Event
import LevelTree.Proofs.Entries
import Mathlib.Data.List.Induction

/-!
# Ledgers

A ledger keeps, for a sequence of events, which positions every open region holds, which of them
came since its last emission, and what each region held when it was emitted. It knows nothing of
nodes and counts; events that name a region which is not open have no place in it. Nothing is lost
on the way (`Ledger.held_perm`, `Ledger.fresh_perm`).
-/

namespace LevelTree

namespace Event

variable {ν α : Type}

/-- The position that an event adds. -/
def position? : Event ν α → Option Position
  | .add _ p => some p
  | _ => none

end Event

/-- The positions added by a sequence of events. -/
def additions {ν α : Type} (events : List (Event ν α)) : List Position :=
  events.filterMap Event.position?

/-- The level that an event gives to the region of a name. -/
def Event.level? {ν α : Type} [DecidableEq ν] (name : ν) : Event ν α → Option α
  | .floor n level | .create n level | .raise n level => if n = name then some level else none
  | _ => none

/-- The level that the region of a name was given last. -/
def levelOf? {ν α : Type} [DecidableEq ν] (events : List (Event ν α)) (name : ν) : Option α :=
  (events.filterMap (Event.level? name)).getLast?

theorem levelOf?_concat {ν α : Type} [DecidableEq ν] {events : List (Event ν α)} {e : Event ν α}
    {name : ν} : levelOf? (events ++ [e]) name = (e.level? name).or (levelOf? events name) := by
  rw [levelOf?, List.filterMap_append, List.getLast?_append]
  cases h : e.level? name <;> simp [h, levelOf?]

/-- What a region holds. -/
structure Holding (α : Type) where
  level : α
  /-- All positions, those of merged regions included. -/
  held : List Position
  /-- The positions that came since the last emission. -/
  fresh : List Position

namespace Holding

variable {α : Type}

/-- No positions. -/
def ofLevel (level : α) : Holding α := ⟨level, [], []⟩

/-- One more position. -/
def add (h : Holding α) (p : Position) : Holding α :=
  { h with held := h.held ++ [p], fresh := h.fresh ++ [p] }

/-- The same at another level. -/
def raise (h : Holding α) (level : α) : Holding α := { h with level }

/-- All that two regions hold, at the level of the first. -/
def merge (h g : Holding α) : Holding α :=
  { h with held := h.held ++ g.held, fresh := h.fresh ++ g.fresh }

/-- What is held after an emission. -/
def settled (h : Holding α) : Holding α := { h with fresh := [] }

theorem length_held_add (h : Holding α) (p : Position) :
    (h.add p).held.length = h.held.length + 1 := by simp [add]

theorem length_held_merge (h g : Holding α) :
    (h.merge g).held.length = h.held.length + g.held.length := by simp [merge]

end Holding

/-- The holdings of the open regions, and those of the regions at their emissions. -/
structure Ledger (ν α : Type) where
  holdings : List (ν × Holding α)
  /-- What was held at each emission, the first one first. -/
  complete : List (Holding α)

namespace Ledger

variable {ν α : Type}

/-- Nothing is open, and nothing was emitted. -/
def empty : Ledger ν α := ⟨[], []⟩

variable [DecidableEq ν]

/-- The ledger without the holding of a name. -/
def remove (l : Ledger ν α) (name : ν) : Ledger ν α :=
  { l with holdings := Entries.without l.holdings name }

/-- The ledger with a holding under a name. -/
def put (l : Ledger ν α) (name : ν) (h : Holding α) : Ledger ν α :=
  { l with holdings := (name, h) :: (l.remove name).holdings }

/-- The holding under a name. -/
def holding? (l : Ledger ν α) (name : ν) : Option (Holding α) := l.holdings.lookup name

/-- The ledger after an event, if the event names open regions and a new one where it creates. -/
def apply (l : Ledger ν α) : Event ν α → Option (Ledger ν α)
  | .floor name level | .create name level =>
    match l.holding? name with
    | none => some (l.put name (.ofLevel level))
    | some _ => none
  | .add name p => (l.holding? name).map fun h => l.put name (h.add p)
  | .raise name level => (l.holding? name).map fun h => l.put name (h.raise level)
  | .merge name other =>
    (l.holding? other).bind fun g =>
      ((l.remove other).holding? name).map fun h => (l.remove other).put name (h.merge g)
  | .emit name =>
    (l.holding? name).map fun h =>
      { l.put name h.settled with complete := l.complete ++ [h] }

/-- The ledger after a sequence of events. -/
def run (l : Ledger ν α) (events : List (Event ν α)) : Option (Ledger ν α) :=
  events.foldlM apply l

theorem run_append (l : Ledger ν α) (events more : List (Event ν α)) :
    l.run (events ++ more) = (l.run events).bind (·.run more) := List.foldlM_append

@[simp] theorem run_nil (l : Ledger ν α) : l.run [] = some l := rfl

@[simp] theorem run_cons (l : Ledger ν α) (e : Event ν α) (events : List (Event ν α)) :
    l.run (e :: events) = (l.apply e).bind (·.run events) := List.foldlM_cons

theorem run_concat {l m : Ledger ν α} {events : List (Event ν α)} {e : Event ν α}
    (h : l.run events = some m) : l.run (events ++ [e]) = m.apply e := by
  rw [run_append, h]
  simp

/-- An event emits one region or none. -/
theorem length_complete {l m : Ledger ν α} {e : Event ν α} (h : l.apply e = some m) :
    m.complete.length = l.complete.length + if e.isEmit then 1 else 0 := by
  cases e with
  | floor name level | create name level =>
    simp only [apply] at h
    split at h
    · cases h; rfl
    · cases h
  | add name p | raise name level =>
    obtain ⟨_, _, rfl⟩ := Option.map_eq_some_iff.1 h
    rfl
  | merge name other =>
    obtain ⟨_, _, h⟩ := Option.bind_eq_some_iff.1 h
    obtain ⟨_, _, rfl⟩ := Option.map_eq_some_iff.1 h
    rfl
  | emit name =>
    obtain ⟨_, _, rfl⟩ := Option.map_eq_some_iff.1 h
    simp [Event.isEmit]

/-- There are as many emissions as were logged. -/
theorem length_complete_run {l m : Ledger ν α} {events : List (Event ν α)}
    (h : l.run events = some m) :
    m.complete.length = l.complete.length + events.countP Event.isEmit := by
  induction events generalizing l with
  | nil =>
    obtain rfl : l = m := by simpa using h
    rfl
  | cons e events ih =>
    rw [run_cons, Option.bind_eq_some_iff] at h
    obtain ⟨k, hk, hm⟩ := h
    rw [ih hm, length_complete hk, List.countP_cons]
    omega

/-! ## Conservation -/

/-- The names of the open regions. -/
def names (l : Ledger ν α) : List ν := l.holdings.map (·.1)

/-- All positions held by open regions. -/
def held (l : Ledger ν α) : List Position := l.holdings.flatMap (·.2.held)

/-- All positions that came since the last emission of their region, or did so at an emission. -/
def fresh (l : Ledger ν α) : List Position :=
  l.complete.flatMap (·.fresh) ++ l.holdings.flatMap (·.2.fresh)

theorem nodup_put {l : Ledger ν α} (h : l.names.Nodup) (name : ν) (g : Holding α) :
    (l.put name g).names.Nodup :=
  List.nodup_cons.2 ⟨Entries.not_mem_without, Entries.nodup_without h⟩

theorem remove_of_not_mem {l : Ledger ν α} {name : ν} (h : name ∉ l.names) : l.remove name = l := by
  have hwithout : Entries.without l.holdings name = l.holdings := Entries.without_of_not_mem h
  rw [remove, hwithout]

theorem holding?_eq_none_iff {l : Ledger ν α} {name : ν} :
    l.holding? name = none ↔ name ∉ l.names := Entries.lookup_eq_none_iff

theorem held_perm_remove {l : Ledger ν α} {name : ν} {g : Holding α} (nodup : l.names.Nodup)
    (h : l.holding? name = some g) : l.held.Perm (g.held ++ (l.remove name).held) :=
  (Entries.perm_cons_without nodup h).flatMap_right _

theorem fresh_perm_remove {l : Ledger ν α} {name : ν} {g : Holding α} (nodup : l.names.Nodup)
    (h : l.holding? name = some g) : l.fresh.Perm (g.fresh ++ (l.remove name).fresh) := by
  have hopen := (Entries.perm_cons_without nodup h).flatMap_right (·.2.fresh)
  refine List.perm_iff_count.2 fun a => ?_
  have hcount := hopen.count_eq a
  simp only [fresh, remove, List.flatMap_cons, List.count_append] at hcount ⊢
  omega

theorem length_put (l : Ledger ν α) (name : ν) (h : Holding α) :
    h.held.length ≤ (l.put name h).held.length := by
  simp [put, held]

/-- A region that gets positions is all that changes. -/
theorem put_perm {l : Ledger ν α} {name : ν} {g g' : Holding α} {ps : List Position}
    (nodup : l.names.Nodup) (h : l.holding? name = some g) (held : g'.held = g.held ++ ps)
    (fresh : g'.fresh = g.fresh ++ ps) : (l.put name g').names.Nodup ∧
      (l.put name g').held.Perm (l.held ++ ps) ∧ (l.put name g').fresh.Perm (l.fresh ++ ps) := by
  refine ⟨nodup_put nodup _ _, List.perm_iff_count.2 fun a => ?_, List.perm_iff_count.2 fun a => ?_⟩
  · have hcount := (held_perm_remove nodup h).count_eq a
    simp only [Ledger.held, put, held, List.flatMap_cons, List.count_append] at hcount ⊢
    omega
  · have hcount := (fresh_perm_remove nodup h).count_eq a
    simp only [Ledger.fresh, put, remove, fresh, List.flatMap_cons, List.count_append] at hcount ⊢
    omega

/-- A region that is created holds nothing yet. -/
theorem create_perm {l m : Ledger ν α} {name : ν} {level : α} (nodup : l.names.Nodup)
    (h : (match l.holding? name with
      | none => some (l.put name (.ofLevel level))
      | some _ => none) = some m) :
    m.names.Nodup ∧ m.held.Perm l.held ∧ m.fresh.Perm l.fresh := by
  split at h
  next hnone =>
    obtain rfl := Option.some.inj h
    have hremove := remove_of_not_mem (holding?_eq_none_iff.1 hnone)
    refine ⟨nodup_put nodup _ _, ?_, ?_⟩ <;>
      simp [held, fresh, put, hremove, Holding.ofLevel]
  next => cases h

/-- An event adds its position to what is held and to what is fresh, and nothing is lost. -/
theorem apply_perm {l m : Ledger ν α} {e : Event ν α} (nodup : l.names.Nodup)
    (h : l.apply e = some m) : m.names.Nodup ∧ m.held.Perm (l.held ++ e.position?.toList) ∧
      m.fresh.Perm (l.fresh ++ e.position?.toList) := by
  cases e with
  | floor name level | create name level =>
    simp only [Event.position?, Option.toList_none, List.append_nil]
    exact create_perm nodup h
  | add name p =>
    obtain ⟨g, hg, rfl⟩ := Option.map_eq_some_iff.1 h
    exact put_perm nodup hg rfl rfl
  | raise name level =>
    obtain ⟨g, hg, rfl⟩ := Option.map_eq_some_iff.1 h
    exact put_perm nodup hg (List.append_nil _).symm (List.append_nil _).symm
  | emit name =>
    obtain ⟨g, hg, rfl⟩ := Option.map_eq_some_iff.1 h
    refine ⟨nodup_put nodup _ _, List.perm_iff_count.2 fun a => ?_,
      List.perm_iff_count.2 fun a => ?_⟩
    · have hcount := (held_perm_remove nodup hg).count_eq a
      simp only [held, put, Holding.settled, List.flatMap_cons, List.count_append, Event.position?,
        Option.toList_none, List.count_nil] at hcount ⊢
      omega
    · have hcount := (fresh_perm_remove nodup hg).count_eq a
      simp only [fresh, put, remove, Holding.settled, List.flatMap_cons, List.flatMap_append,
        List.flatMap_nil, List.append_nil, List.count_append, Event.position?, Option.toList_none,
        List.nil_append] at hcount ⊢
      omega
  | merge name other =>
    simp only [apply, Option.bind_eq_some_iff, Option.map_eq_some_iff] at h
    obtain ⟨g, hg, f, hf, rfl⟩ := h
    have nodup' : (l.remove other).names.Nodup := Entries.nodup_without nodup
    refine ⟨nodup_put nodup' _ _, List.perm_iff_count.2 fun a => ?_,
      List.perm_iff_count.2 fun a => ?_⟩
    · have h₁ := (held_perm_remove nodup hg).count_eq a
      have h₂ := (held_perm_remove nodup' hf).count_eq a
      simp only [held, put, Holding.merge, List.flatMap_cons, List.count_append, Event.position?,
        Option.toList_none, List.count_nil] at h₁ h₂ ⊢
      omega
    · have h₁ := (fresh_perm_remove nodup hg).count_eq a
      have h₂ := (fresh_perm_remove nodup' hf).count_eq a
      simp only [fresh, put, remove, Holding.merge, List.flatMap_cons, List.count_append,
        Event.position?, Option.toList_none, List.count_nil] at h₁ h₂ ⊢
      omega

/-- Everything that was added is held by an open region, and is fresh there or was so at an
emission. -/
theorem run_perm {l m : Ledger ν α} {events : List (Event ν α)} (nodup : l.names.Nodup)
    (h : l.run events = some m) : m.names.Nodup ∧ m.held.Perm (l.held ++ additions events) ∧
      m.fresh.Perm (l.fresh ++ additions events) := by
  induction events generalizing l with
  | nil =>
    obtain rfl : l = m := by simpa using h
    simp [additions, nodup]
  | cons e events ih =>
    rw [run_cons, Option.bind_eq_some_iff] at h
    obtain ⟨k, hk, hm⟩ := h
    obtain ⟨nodup', hheld, hfresh⟩ := apply_perm nodup hk
    obtain ⟨hnodup, hheld', hfresh'⟩ := ih nodup' hm
    have hadd : additions (e :: events) = e.position?.toList ++ additions events := by
      simp only [additions, List.filterMap_cons]
      cases e.position? <;> rfl
    rw [hadd, ← List.append_assoc, ← List.append_assoc]
    exact ⟨hnodup, hheld'.trans (hheld.append_right _), hfresh'.trans (hfresh.append_right _)⟩

section Empty

variable {m : Ledger ν α} {events : List (Event ν α)}

omit [DecidableEq ν] in
theorem nodup_empty : (empty : Ledger ν α).names.Nodup := .nil

theorem nodup_names (h : empty.run events = some m) : m.names.Nodup := (run_perm nodup_empty h).1

/-- What is held in the end is what was added. -/
theorem held_perm (h : empty.run events = some m) : m.held.Perm (additions events) :=
  (run_perm nodup_empty h).2.1

/-- What is fresh in the end, or was so at an emission, is what was added. -/
theorem fresh_perm (h : empty.run events = some m) : m.fresh.Perm (additions events) :=
  (run_perm nodup_empty h).2.2

omit [DecidableEq ν] in
theorem additions_concat {events : List (Event ν α)} {e : Event ν α} :
    additions (events ++ [e]) = additions events ++ e.position?.toList := by
  rw [additions, List.filterMap_append]
  cases h : e.position? <;> simp [additions, h]

/-- A holding is complete when its region is emitted, and stays so. -/
theorem mem_complete {l m : Ledger ν α} {e : Event ν α} {g : Holding α} (h : l.apply e = some m)
    (hg : g ∈ m.complete) :
    g ∈ l.complete ∨ ∃ name, e = .emit name ∧ l.holding? name = some g := by
  cases e with
  | floor name level | create name level =>
    simp only [apply] at h
    split at h
    · cases h
      exact .inl hg
    · cases h
  | add name p | raise name level =>
    obtain ⟨_, _, rfl⟩ := Option.map_eq_some_iff.1 h
    exact .inl hg
  | merge name other =>
    obtain ⟨_, _, h⟩ := Option.bind_eq_some_iff.1 h
    obtain ⟨_, _, rfl⟩ := Option.map_eq_some_iff.1 h
    exact .inl hg
  | emit name =>
    obtain ⟨f, hf, rfl⟩ := Option.map_eq_some_iff.1 h
    rcases List.mem_append.1 hg with hg | hg
    · exact .inl hg
    · rw [List.mem_singleton.1 hg]
      exact .inr ⟨name, rfl, hf⟩

/-- What was held at an emission is a part of what was added. -/
theorem held_of_complete (h : empty.run events = some m) {g : Holding α} (hg : g ∈ m.complete) :
    ∃ rest, (additions events).Perm (g.held ++ rest) := by
  induction events using List.reverseRecOn generalizing m with
  | nil =>
    obtain rfl : empty = m := by simpa using h
    simp [empty] at hg
  | append_singleton events e ih =>
    rw [run_append, Option.bind_eq_some_iff] at h
    obtain ⟨l, hl, hm⟩ := h
    rw [additions_concat]
    rcases mem_complete (by simpa using hm) hg with hold | ⟨name, rfl, hnew⟩
    · obtain ⟨rest, hrest⟩ := ih hl hold
      exact ⟨rest ++ e.position?.toList, by
        rw [← List.append_assoc]
        exact hrest.append_right _⟩
    · have hheld := (held_perm hl).symm.trans (held_perm_remove (nodup_names hl) hnew)
      exact ⟨_, by simpa [Event.position?] using hheld⟩

end Empty

/-! ## Levels -/

theorem holding?_remove (l : Ledger ν α) (name n : ν) :
    (l.remove name).holding? n = if n = name then none else l.holding? n := Entries.lookup_without

theorem holding?_put (l : Ledger ν α) (name : ν) (h : Holding α) (n : ν) :
    (l.put name h).holding? n = if n = name then some h else l.holding? n := by
  rw [holding?, put, List.lookup_cons]
  by_cases hn : n = name
  · simp [hn]
  · have hne : (n == name) = false := by simpa using hn
    rw [hne, if_neg hn]
    exact (holding?_remove l name n).trans (if_neg hn)

/-- A region is put down at the level that it was given last. -/
def Leveled (l : Ledger ν α) (events : List (Event ν α)) : Prop :=
  ∀ name h, l.holding? name = some h → levelOf? events name = some h.level

theorem Leveled.put {l : Ledger ν α} {events : List (Event ν α)} {e : Event ν α} {name : ν}
    {h : Holding α} (hl : l.Leveled events) (self : levelOf? (events ++ [e]) name = some h.level)
    (others : ∀ n, n ≠ name → e.level? n = none) : (l.put name h).Leveled (events ++ [e]) := by
  intro n g hg
  rw [holding?_put] at hg
  split at hg
  next hn =>
    cases hg
    rw [hn, self]
  next hn =>
    rw [levelOf?_concat, others n hn, Option.none_or]
    exact hl n g hg

/-- Each event leaves the regions at the levels that they were given last. -/
theorem Leveled.apply {l m : Ledger ν α} {events : List (Event ν α)} {e : Event ν α}
    (hl : l.Leveled events) (h : l.apply e = some m) : m.Leveled (events ++ [e]) := by
  cases e with
  | floor name level | create name level =>
    simp only [Ledger.apply] at h
    split at h
    · cases h
      refine hl.put ?_ fun n hn => ?_
      · simp [levelOf?_concat, Event.level?, Holding.ofLevel]
      · simp [Event.level?, Ne.symm hn]
    · cases h
  | add name p | emit name =>
    obtain ⟨g, hg, rfl⟩ := Option.map_eq_some_iff.1 h
    refine hl.put ?_ fun _ _ => rfl
    rw [levelOf?_concat]
    exact hl name g hg
  | raise name level =>
    obtain ⟨g, hg, rfl⟩ := Option.map_eq_some_iff.1 h
    refine hl.put ?_ fun n hn => ?_
    · simp [levelOf?_concat, Event.level?, Holding.raise]
    · simp [Event.level?, Ne.symm hn]
  | merge name other =>
    simp only [Ledger.apply, Option.bind_eq_some_iff, Option.map_eq_some_iff] at h
    obtain ⟨g, -, f, hf, rfl⟩ := h
    have hremove : (l.remove other).Leveled events := by
      intro n k hk
      rw [holding?_remove] at hk
      split at hk
      · cases hk
      · exact hl n k hk
    refine hremove.put ?_ fun _ _ => rfl
    rw [levelOf?_concat]
    exact hremove name f hf

/-- The ledger has every open region at the level that it was given last. -/
theorem leveled_of_run {m : Ledger ν α} {events : List (Event ν α)} (h : empty.run events = some m) :
    m.Leveled events := by
  induction events using List.reverseRecOn generalizing m with
  | nil =>
    obtain rfl : empty = m := by simpa using h
    intro name g hg
    simp [empty, holding?] at hg
  | append_singleton events e ih =>
    rw [run_append, Option.bind_eq_some_iff] at h
    obtain ⟨l, hl, hm⟩ := h
    exact (ih hl).apply (by simpa using hm)

/-! ## The stack

A flood works on the region it opened last, which stands in front. -/

section Stack

variable {n m : ν} {h g : Holding α} {rest : List (ν × Holding α)} {done : List (Holding α)}

theorem remove_head (hn : n ∉ rest.map (·.1)) :
    (⟨(n, h) :: rest, done⟩ : Ledger ν α).remove n = ⟨rest, done⟩ := by
  have hwithout : Entries.without ((n, h) :: rest) n = rest := by
    rw [Entries.without_cons_self rfl, Entries.without_of_not_mem hn]
  rw [remove, hwithout]

theorem put_head (hn : n ∉ rest.map (·.1)) :
    (⟨(n, h) :: rest, done⟩ : Ledger ν α).put n g = ⟨(n, g) :: rest, done⟩ := by
  rw [put, remove_head hn]

@[simp] theorem holding?_head : (⟨(n, h) :: rest, done⟩ : Ledger ν α).holding? n = some h := by
  simp [holding?]

theorem apply_create {level : α} (hn : n ∉ rest.map (·.1)) :
    (⟨rest, done⟩ : Ledger ν α).apply (.create n level) =
      some ⟨(n, .ofLevel level) :: rest, done⟩ := by
  have hnone : (⟨rest, done⟩ : Ledger ν α).holding? n = none := holding?_eq_none_iff.2 hn
  have hremove : (⟨rest, done⟩ : Ledger ν α).remove n = ⟨rest, done⟩ := remove_of_not_mem hn
  simp only [apply, hnone, put, hremove]

theorem apply_add_head {p : Position} (hn : n ∉ rest.map (·.1)) :
    (⟨(n, h) :: rest, done⟩ : Ledger ν α).apply (.add n p) = some ⟨(n, h.add p) :: rest, done⟩ := by
  simp [apply, put_head hn]

theorem apply_raise_head {level : α} (hn : n ∉ rest.map (·.1)) :
    (⟨(n, h) :: rest, done⟩ : Ledger ν α).apply (.raise n level) =
      some ⟨(n, h.raise level) :: rest, done⟩ := by
  simp [apply, put_head hn]

theorem apply_emit_head (hn : n ∉ rest.map (·.1)) :
    (⟨(n, h) :: rest, done⟩ : Ledger ν α).apply (.emit n) =
      some ⟨(n, h.settled) :: rest, done ++ [h]⟩ := by
  simp [apply, put_head hn]

theorem apply_merge_head (hn : n ∉ m :: rest.map (·.1)) (hm : m ∉ rest.map (·.1)) :
    (⟨(n, g) :: (m, h) :: rest, done⟩ : Ledger ν α).apply (.merge m n) =
      some ⟨(m, h.merge g) :: rest, done⟩ := by
  have hremove : (⟨(n, g) :: (m, h) :: rest, done⟩ : Ledger ν α).remove n = ⟨(m, h) :: rest, done⟩ :=
    remove_head hn
  simp [apply, hremove, put_head hm]

end Stack

end Ledger

end LevelTree
