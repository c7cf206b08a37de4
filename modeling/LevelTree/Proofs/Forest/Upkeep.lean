import LevelTree.Proofs.Assembly
import Mathlib.Algebra.Ring.Nat

/-!
# What every use of regions keeps

Regions may be created, grown, raised, merged and emitted in any order, as long as a name stands for
one region at a time (`Orderly`). Wherever this leads, parents and children agree, sizes add up, the
nodes without a parent are those that the open regions refer to, and no position is lost (`Upkept`,
`upkeep`).
-/

namespace LevelTree

open Forest

variable {ν α : Type}

/-- The size of the node with an index, or zero where there is no such node. -/
def Forest.sizeAt (f : Forest α) (i : Nat) : Nat := ((f.get? i).map (·.size)).getD 0

/-- How the open regions, the nodes and the positions added so far belong together. -/
structure Upkept (a : Assembly ν α) (added : List Position) : Prop where
  named : (a.regions.map (·.1)).Nodup
  parent : ∀ i j n, a.forest.get? i = some n →
    (n.parent = some j ↔ ∃ m, a.forest.get? j = some m ∧ i ∈ m.children)
  /-- A node has no child twice, and each child was emitted before it. -/
  children : ∀ j m, a.forest.get? j = some m → m.children.Nodup ∧ ∀ i ∈ m.children, i < j
  nodeSize : ∀ i n, a.forest.get? i = some n →
    n.size = n.own.length + (n.children.map a.forest.sizeAt).sum
  regionSize : ∀ e ∈ a.regions,
    e.2.size = e.2.pending.length + (e.2.references.map a.forest.sizeAt).sum
  known : ∀ e ∈ a.regions, ∀ i ∈ e.2.references, i < a.forest.size
  /-- One open region refers to a node that has no parent, once, and none to any other node. -/
  referred : ∀ i n, a.forest.get? i = some n →
    (a.regions.flatMap (·.2.references)).count i = if n.parent = none then 1 else 0
  conserved : added.Perm
    (a.regions.flatMap (·.2.pending) ++ a.forest.nodes.toList.flatMap Node.own)

/-! ## Orderly sequences -/

section Orderly

variable [DecidableEq ν]

/-- The event creates a region under a new name, or is about open regions; a region does not take in
itself. -/
def Event.Allowed (names : List ν) : Event ν α → Prop
  | .floor name _ | .create name _ => name ∉ names
  | .add name _ | .raise name _ | .emit name => name ∈ names
  | .merge name other => name ≠ other ∧ name ∈ names ∧ other ∈ names

/-- The names of the open regions after an event. -/
def Event.namesAfter (names : List ν) : Event ν α → List ν
  | .floor name _ | .create name _ => name :: names
  | .merge _ other => names.filter (· ≠ other)
  | _ => names

/-- Every event is allowed when its turn comes. -/
def Orderly (names : List ν) : List (Event ν α) → Prop
  | [] => True
  | e :: events => e.Allowed names ∧ Orderly (e.namesAfter names) events

instance decidableAllowed (names : List ν) : (e : Event ν α) → Decidable (e.Allowed names)
  | .floor name _ | .create name _ => inferInstanceAs (Decidable (name ∉ names))
  | .add name _ | .raise name _ | .emit name => inferInstanceAs (Decidable (name ∈ names))
  | .merge name other => inferInstanceAs (Decidable (name ≠ other ∧ name ∈ names ∧ other ∈ names))

instance decidableOrderly : (names : List ν) → (events : List (Event ν α)) →
    Decidable (Orderly names events)
  | _, [] => inferInstanceAs (Decidable True)
  | names, e :: events =>
    have := decidableOrderly (e.namesAfter names) events
    inferInstanceAs (Decidable (e.Allowed names ∧ Orderly (e.namesAfter names) events))

/-- The names are those of the open regions. -/
def Ledger.Opens (l : Ledger ν α) (names : List ν) : Prop :=
  ∀ n, n ∈ names ↔ (l.holding? n).isSome

variable {l : Ledger ν α} {e : Event ν α} {events : List (Event ν α)} {names : List ν} {name : ν}
  {h : Holding α}

theorem Ledger.Opens.put (hl : l.Opens names) (hn : name ∈ names) : (l.put name h).Opens names := by
  intro n
  rw [holding?_put]
  by_cases heq : n = name
  · simp [heq, hn]
  · rw [if_neg heq, hl]

/-- An event that is allowed is booked. -/
theorem Ledger.Opens.exists_apply (hl : l.Opens names) (allowed : e.Allowed names) :
    ∃ m, l.apply e = some m ∧ m.Opens (e.namesAfter names) := by
  have opened : ∀ {n}, n ∈ names → ∃ h, l.holding? n = some h := fun hn =>
    Option.isSome_iff_exists.1 ((hl _).1 hn)
  cases e with
  | floor name level | create name level =>
    have hnone : l.holding? name = none := by
      have hnot := mt (hl name).2 allowed
      simpa using hnot
    refine ⟨l.put name (.ofLevel level), by simp [apply, hnone], fun n => ?_⟩
    rw [holding?_put, Event.namesAfter, List.mem_cons, hl]
    by_cases heq : n = name <;> simp [heq]
  | add name p | raise name level =>
    obtain ⟨h, hh⟩ := opened allowed
    exact ⟨l.put name _, by rw [apply, hh]; rfl, hl.put allowed⟩
  | emit name =>
    obtain ⟨h, hh⟩ := opened allowed
    exact ⟨{ l.put name h.settled with complete := l.complete ++ [h] }, by rw [apply, hh]; rfl,
      fun n => hl.put allowed n⟩
  | merge name other =>
    obtain ⟨hne, hname, hother⟩ := allowed
    obtain ⟨g, hg⟩ := opened hother
    obtain ⟨h, hh⟩ := opened hname
    have hremoved : (l.remove other).holding? name = some h := by
      rw [holding?_remove, if_neg hne, hh]
    refine ⟨(l.remove other).put name (h.merge g), by simp [apply, hg, hremoved], ?_⟩
    have hrest : (l.remove other).Opens (names.filter (· ≠ other)) := by
      intro n
      rw [holding?_remove, List.mem_filter, hl]
      by_cases heq : n = other <;> simp [heq]
    exact hrest.put (List.mem_filter.2 ⟨hname, by simpa using hne⟩)

/-- An orderly sequence is booked. -/
theorem Ledger.Opens.exists_run (hl : l.Opens names) (orderly : Orderly names events) :
    ∃ m, l.run events = some m := by
  induction events generalizing l names with
  | nil => exact ⟨l, rfl⟩
  | cons e events ih =>
    obtain ⟨k, hk, hopens⟩ := hl.exists_apply orderly.1
    obtain ⟨m, hm⟩ := ih hopens orderly.2
    exact ⟨m, by rw [run_cons, hk]; exact hm⟩

theorem Ledger.opens_empty : (Ledger.empty : Ledger ν α).Opens [] := by
  simp [Opens, empty, holding?]

end Orderly

/-! ## Sizes and positions -/

section Matches

variable {d i j : Nat} {l : Ledger ν α} {a : Assembly ν α} {n : Node α}

/-- Each node keeps what a region held when it was emitted. -/
theorem Matches.exists_keeps (hm : Matches d l a) (hn : a.forest.get? i = some n) :
    ∃ h, l.complete[i]? = some h ∧ Keeps a.forest i h n := by
  have hi : i < l.complete.length := hm.size ▸ get?_lt hn
  obtain ⟨m, keeps⟩ := hm.nodes i _ (List.getElem?_eq_getElem hi)
  obtain rfl : m = n := Option.some.inj (keeps.get.symm.trans hn)
  exact ⟨_, List.getElem?_eq_getElem hi, keeps⟩

/-- A node has the size of its listing, so that sizes add up to the length of the listings. -/
theorem Matches.sum_sizes (hm : Matches d l a) {is : List Nat} (known : ∀ i ∈ is, i < a.forest.size) :
    (is.map a.forest.sizeAt).sum = (is.flatMap a.forest.listingAt).length := by
  rw [List.length_flatMap]
  refine congrArg List.sum (List.map_congr_left fun i hi => ?_)
  obtain ⟨n, hn⟩ := exists_get? (known i hi)
  obtain ⟨h, -, keeps⟩ := hm.exists_keeps hn
  rw [sizeAt, hn, keeps.listing.length_eq]
  exact keeps.size

theorem Matches.nodeSize (hm : Matches d l a) (hn : a.forest.get? i = some n) :
    n.size = n.own.length + (n.children.map a.forest.sizeAt).sum := by
  obtain ⟨h, -, keeps⟩ := hm.exists_keeps hn
  have known : ∀ c ∈ n.children, c < a.forest.size := fun c hc =>
    Nat.lt_trans (lt_of_mem_children hn hc) (get?_lt hn)
  have hlisting := keeps.listing.length_eq
  rw [listingAt_eq hn, List.length_append,
    ((List.reverse_perm _).flatMap_right _).length_eq] at hlisting
  rw [hm.sum_sizes known, keeps.size, ← hlisting]

theorem Matches.regionSize (hd : 0 < d) (hm : Matches d l a) {e : ν × Region α}
    (he : e ∈ a.regions) :
    e.2.size = e.2.pending.length + (e.2.references.map a.forest.sizeAt).sum := by
  obtain ⟨o, -, -, hstands⟩ := Entries.exists_of_mem hm.regions he
  rw [hm.sum_sizes hstands.known, hstands.size, hstands.pending_eq hd, hstands.held.length_eq,
    List.length_append]

/-- What is fresh in the books is pending in the open regions. -/
theorem flatMap_pending {f : Forest α} (hd : 0 < d) {holdings : List (ν × Holding α)}
    {regions : List (ν × Region α)}
    (h : List.Forall₂ (Entries.Under (Stands f d)) holdings regions) :
    regions.flatMap (·.2.pending) = holdings.flatMap (·.2.fresh) := by
  induction h with
  | nil => rfl
  | cons hhead _ ih => rw [List.flatMap_cons, List.flatMap_cons, hhead.2.pending_eq hd, ih]

/-- What was fresh at the emissions belongs to the nodes. -/
theorem Matches.flatMap_own (hm : Matches d l a) :
    a.forest.nodes.toList.flatMap Node.own = l.complete.flatMap (·.fresh) := by
  rw [List.flatMap_def, List.flatMap_def]
  refine congrArg List.flatten (List.ext_getElem? fun i => ?_)
  rw [List.getElem?_map, List.getElem?_map, Array.getElem?_toList]
  cases hi : l.complete[i]? with
  | none =>
    have hnone : a.forest.get? i = none := get?_eq_none (hm.size ▸ List.getElem?_eq_none_iff.1 hi)
    rw [get?] at hnone
    simp [hnone]
  | some h =>
    obtain ⟨n, keeps⟩ := hm.nodes i h hi
    have hn := keeps.get
    rw [get?] at hn
    simp [hn, keeps.own]

theorem mem_childrenAt_iff {f : Forest α} :
    i ∈ f.childrenAt j ↔ ∃ m, f.get? j = some m ∧ i ∈ m.children := by
  cases hj : f.get? j <;> simp [childrenAt, hj]

theorem Linked.nodup_children (ha : Linked a) (hn : a.forest.get? j = some n) : n.children.Nodup := by
  have hnodup : a.forest.linked.Nodup :=
    (List.nodup_append.1 (ha.places.nodup_iff.2 List.nodup_range)).2.1
  rw [← childrenAt_eq hn]
  exact (List.nodup_flatMap.1 hnodup).1 j (List.mem_range.2 (get?_lt hn))

theorem Linked.referred (ha : Linked a) (hn : a.forest.get? i = some n) :
    (a.regions.flatMap (·.2.references)).count i = if n.parent = none then 1 else 0 := by
  have hcount := ha.places.count_eq i
  have hone : (List.range a.forest.size).count i = 1 :=
    List.count_eq_one_of_mem List.nodup_range (List.mem_range.2 (get?_lt hn))
  rw [List.count_append, hone] at hcount
  have hrooted := ha.rooted i n hn
  cases hparent : n.parent with
  | none =>
    have hnot : i ∉ a.forest.linked := by
      intro hlinked
      obtain ⟨j, hj⟩ := mem_linked_iff.1 hlinked
      simp [(hrooted j).2 hj] at hparent
    rw [List.count_eq_zero_of_not_mem hnot] at hcount
    simpa using hcount
  | some j =>
    have hlinked : i ∈ a.forest.linked := mem_linked_iff.2 ⟨j, (hrooted j).1 hparent⟩
    have hpos := List.count_pos_iff.2 hlinked
    simp only [reduceCtorEq, if_false]
    omega

end Matches

section Upkeep

variable [DecidableEq ν] {d : Nat} {l : Ledger ν α} {a : Assembly ν α} {events : List (Event ν α)}

/-- Where the books agree with the assembly and every node has its place, all is kept. -/
theorem Matches.upkept (hd : 0 < d) (hm : Matches d l a) (linked : Linked a)
    (hl : Ledger.empty.run events = some l) : Upkept a (additions events) where
  named := hm.nodup (Ledger.nodup_names hl)
  parent := by
    intro i j n hn
    rw [linked.rooted i n hn, mem_childrenAt_iff]
  children := by
    intro j m hm
    exact ⟨linked.nodup_children hm, fun i hi => lt_of_mem_children hm hi⟩
  nodeSize := fun i n hn => hm.nodeSize hn
  regionSize := fun e he => hm.regionSize hd he
  known := by
    intro e he
    obtain ⟨o, -, -, hstands⟩ := Entries.exists_of_mem hm.regions he
    exact hstands.known
  referred := fun i n hn => linked.referred hn
  conserved := by
    rw [flatMap_pending hd hm.regions, hm.flatMap_own]
    exact (Ledger.fresh_perm hl).symm.trans List.perm_append_comm

/-- However regions are used in an orderly way, with positions of one length, everything belongs
together where this leads. It leads somewhere as long as sizes are words and there is room for the
nodes. -/
theorem upkeep (sides : List Nat) (hd : 1 ≤ d) (orderly : Orderly [] events)
    (lengths : ∀ p ∈ additions events, p.length = d) :
    (∀ a, (Assembly.ofForest (.empty sides)).replay events = .ok a → Upkept a (additions events)) ∧
      ((additions events).length < Word.limit → events.countP Event.isEmit ≤ nodeLimit →
        ∃ a, (Assembly.ofForest (.empty sides)).replay events = .ok a) := by
  obtain ⟨l, hl⟩ := Ledger.opens_empty.exists_run orderly
  have hempty : Matches d (Ledger.empty : Ledger ν α) (.ofForest (.empty sides)) := matches_empty sides
  constructor
  · intro a ha
    obtain ⟨hmatches, linked⟩ :=
      hempty.of_replay hd Ledger.nodup_empty hl lengths (linked_empty sides) ha
    exact hmatches.upkept hd linked hl
  · intro few room
    rw [← (Ledger.held_perm hl).length_eq] at few
    have hcomplete : l.complete.length = events.countP Event.isEmit :=
      (Ledger.length_complete_run hl).trans (Nat.zero_add _)
    obtain ⟨a, ha, -⟩ := hempty.replay hd Ledger.nodup_empty hl lengths few (linked_empty sides)
      (hcomplete ▸ room)
    exact ⟨a, ha⟩

end Upkeep

/-- A region takes in one that was emitted twice, and one that never got a position. -/
def rounds : List (Event Nat Nat) :=
  [.create 0 5, .create 1 3, .add 1 [4], .emit 1, .add 1 [2], .emit 1, .merge 0 1, .create 2 1,
    .emit 2, .merge 0 2, .emit 0, .raise 0 9]

theorem upkeep_rounds : Orderly [] rounds ∧ (∀ p ∈ additions rounds, p.length = 1) ∧
    ∃ a, (Assembly.ofForest (.empty [5])).replay rounds = .ok a ∧ a.forest.size = 4 ∧
      Upkept a [[4], [2]] := by
  have orderly : Orderly [] rounds := by decide
  have lengths : ∀ p ∈ additions rounds, p.length = 1 := by decide
  obtain ⟨keeps, leads⟩ := upkeep [5] (Nat.le_refl 1) orderly lengths
  obtain ⟨a, ha⟩ := leads (by decide) (by decide)
  have heval : ((Assembly.ofForest (.empty [5])).replay rounds).map (·.forest.size) = .ok 4 := by
    decide +kernel
  rw [ha] at heval
  exact ⟨orderly, lengths, a, ha, by simpa [Except.map] using heval, keeps a ha⟩

end LevelTree
