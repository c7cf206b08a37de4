import LevelTree.Frontier
import LevelTree.Proofs.Heap
import LevelTree.Proofs.Ranking

/-!
# What waits on a frontier

The slots of a frontier are partitioned into those that wait, those that are free and those that
are out, popped and not released (`Intact`). While that holds, a push adds its record to the
waiting ones and a pop takes one away, whatever the ranking is (`push_spec`, `pop_spec`). Where the
ranking is an order, the record that is popped ranks after no other (`not_lt_of_pop`).
-/

namespace LevelTree.Frontier

variable {α : Type} {rank : Ranking α} {q p : Frontier α} {r : Record α} {slot : Nat}
  {out : List Nat}

/-- The waiting records, in the order of the heap. -/
def waiting (q : Frontier α) : List (Record α) := q.heap.toList.filterMap (q.pool[·]?)

/-- Each slot waits, is free or is one of `out`, and is so once. -/
def Intact (q : Frontier α) (out : List Nat) : Prop :=
  (q.heap.toList ++ q.free ++ out).Perm (List.range q.pool.size)

/-- No waiting record ranks before the one above it in the heap. -/
def Ranked (rank : Ranking α) (q : Frontier α) : Prop :=
  Heap.Ordered (before rank q.pool) q.heap

theorem intact_empty : (empty : Frontier α).Intact [] := List.Perm.refl _

theorem ranked_empty : (empty : Frontier α).Ranked rank := fun _ _ hi => absurd hi (Nat.not_lt_zero _)

@[simp] theorem waiting_empty : (empty : Frontier α).waiting = [] := rfl

theorem length_filterMap_pool {pool : Array (Record α)} {slots : List Nat}
    (h : ∀ s ∈ slots, s < pool.size) : (slots.filterMap (pool[·]?)).length = slots.length := by
  induction slots with
  | nil => rfl
  | cons s slots ih =>
    have hlt : s < pool.size := h s (by simp)
    rw [List.filterMap_cons_some (Array.getElem?_eq_getElem hlt), List.length_cons,
      List.length_cons, ih fun t ht => h t (by simp [ht])]

@[simp] theorem length_waiting : q.waiting.length = q.size := by
  rw [waiting, length_filterMap_pool (by simpa using q.heap_lt)]
  simp [size]

theorem waiting_eq_nil_iff : q.waiting = [] ↔ q.size = 0 := by
  rw [← List.length_eq_zero_iff, length_waiting]

theorem isEmpty_iff : q.isEmpty = true ↔ q.waiting = [] := by
  rw [waiting_eq_nil_iff]
  simp [isEmpty, size]

/-! ## Slots -/

theorem Intact.nodup (h : q.Intact out) : (q.heap.toList ++ q.free ++ out).Nodup :=
  h.nodup_iff.2 List.nodup_range

theorem Intact.lt_size (h : q.Intact out) (hs : slot ∈ q.heap.toList ++ q.free ++ out) :
    slot < q.pool.size := by
  simpa using h.mem_iff.1 hs

/-- A slot that is free holds no waiting record. -/
theorem Intact.not_mem_heap (h : q.Intact out) (hs : slot ∈ q.free) : slot ∉ q.heap := by
  intro hq
  have := (List.nodup_append.1 (List.nodup_append.1 h.nodup).1).2.2
  exact this slot (by simpa using hq) slot hs rfl

/-- A released slot is free. -/
theorem Intact.release (h : q.Intact (slot :: out)) : (q.release slot).Intact out := by
  refine List.Perm.trans ?_ h
  simp only [Frontier.release, List.append_assoc]
  have hmiddle : (slot :: (q.free ++ out)).Perm (q.free ++ slot :: out) := List.perm_middle.symm
  exact hmiddle.append_left _

theorem filterMap_congr {pool pool' : Array (Record α)} {slots : List Nat}
    (h : ∀ s ∈ slots, pool'[s]? = pool[s]?) :
    slots.filterMap (pool'[·]?) = slots.filterMap (pool[·]?) := by
  induction slots with
  | nil => rfl
  | cons s slots ih =>
    rw [List.filterMap_cons, List.filterMap_cons, h s (by simp), ih fun t ht => h t (by simp [ht])]

/-- Records that a new pool keeps wait on, next to the record in the slot that joins them. -/
theorem waiting_enqueue {pool : Array (Record α)} {free : List Nat}
    (heap_lt : ∀ s ∈ q.heap, s < pool.size) (slot_lt : slot < pool.size)
    (keeps : ∀ s ∈ q.heap, pool[s]? = q.pool[s]?) (new : pool[slot]? = some r) :
    (enqueue rank pool free q.heap heap_lt slot slot_lt).waiting.Perm (r :: q.waiting) := by
  have hperm : (Heap.insert (before rank pool) q.heap slot).toList.Perm (q.heap.toList ++ [slot]) := by
    simpa using (Heap.insert_perm (before rank pool) q.heap slot).toList
  have hold : q.heap.toList.filterMap (pool[·]?) = q.waiting :=
    filterMap_congr fun s hs => keeps s (by simpa using hs)
  refine (hperm.filterMap (pool[·]?)).trans ?_
  rw [List.filterMap_append, hold, List.filterMap_cons_some new]
  exact List.perm_append_singleton _ _

theorem intact_enqueue {pool : Array (Record α)} {free : List Nat}
    {heap_lt : ∀ s ∈ q.heap, s < pool.size} {slot_lt : slot < pool.size}
    (h : (slot :: (q.heap.toList ++ free ++ out)).Perm (List.range pool.size)) :
    (enqueue rank pool free q.heap heap_lt slot slot_lt).Intact out := by
  have hperm : (Heap.insert (before rank pool) q.heap slot).toList.Perm (slot :: q.heap.toList) :=
    ((Heap.insert_perm (before rank pool) q.heap slot).toList.trans
      (by simp [List.perm_append_singleton]))
  exact ((hperm.append_right free).append_right out).trans h

/-- A push succeeds, keeps the records that are out, and adds one to those that wait. -/
theorem push_spec (rank : Ranking α) (r : Record α) (h : q.Intact out) :
    ∃ p, q.push rank r = .ok p ∧ p.Intact out ∧ p.waiting.Perm (r :: q.waiting) ∧
      ∀ s ∈ out, p.pool[s]? = q.pool[s]? := by
  unfold push
  split
  next hfree =>
    refine ⟨_, rfl, intact_enqueue ?_, waiting_enqueue _ _ ?_ (by simp), ?_⟩
    · rw [Intact, hfree] at h
      rw [Array.size_push, List.range_succ]
      exact (h.cons _).trans (List.perm_append_singleton _ _).symm
    · intro s hs
      exact Array.getElem?_push_lt (q.heap_lt s hs) ▸ (Array.getElem?_eq_getElem (q.heap_lt s hs)).symm
    · intro s hs
      have hlt : s < q.pool.size := h.lt_size (by simp [hs])
      exact Array.getElem?_push_lt hlt ▸ (Array.getElem?_eq_getElem hlt).symm
  next slot free hfree =>
    have hslot : slot ∈ q.free := by simp [hfree]
    have hlt : slot < q.pool.size := h.lt_size (by simp [hslot])
    rw [dif_pos hlt]
    refine ⟨_, rfl, intact_enqueue ?_, waiting_enqueue _ _ ?_ (by simp [hlt]), ?_⟩
    · rw [Array.size_set]
      refine List.Perm.trans ?_ h
      rw [hfree, List.append_assoc, List.append_assoc, List.cons_append]
      exact List.perm_middle.symm
    · intro s hs
      rw [Array.getElem?_set_ne hlt]
      rintro rfl
      exact h.not_mem_heap hslot hs
    · intro s hs
      refine Array.getElem?_set_ne hlt ?_
      rintro rfl
      exact (List.nodup_append.1 h.nodup).2.2 slot (by simp [hslot]) slot hs rfl

theorem spec_of_push (h : q.Intact out) (pushed : q.push rank r = .ok p) :
    p.Intact out ∧ p.waiting.Perm (r :: q.waiting) := by
  obtain ⟨p', hp', hintact, hperm, -⟩ := push_spec rank r h
  obtain rfl : p = p' := by simpa using pushed.symm.trans hp'
  exact ⟨hintact, hperm⟩

/-- A pop takes one record away from those that wait, and its slot is out. -/
theorem pop_spec (h : q.Intact out) (hpop : q.pop rank = some (slot, r, p)) :
    p.Intact (slot :: out) ∧ q.waiting.Perm (r :: p.waiting) ∧ p.pool = q.pool ∧
      q.pool[slot]? = some r := by
  unfold pop at hpop
  split at hpop
  next hpos =>
    have hlt : q.heap[0] < q.pool.size := q.heap_lt _ (Array.getElem_mem hpos)
    simp only [Option.some.injEq, Prod.mk.injEq] at hpop
    obtain ⟨rfl, rfl, rfl⟩ := hpop
    have hperm : q.heap.toList.Perm
        (q.heap[0] :: (Heap.removeFirst (before rank q.pool) q.heap hpos).toList) := by
      refine (Heap.removeFirst_perm (before rank q.pool) q.heap hpos).toList.symm.trans ?_
      simp [List.perm_append_singleton]
    have hget : q.pool[q.heap[0]]? = some q.pool[q.heap[0]] := Array.getElem?_eq_getElem hlt
    refine ⟨?_, ?_, rfl, hget⟩
    · refine List.Perm.trans ?_ h
      refine List.Perm.trans ?_ ((hperm.symm.append_right q.free).append_right out)
      exact List.perm_middle
    · rw [waiting, waiting, ← List.filterMap_cons_some hget]
      exact hperm.filterMap _
  next => simp at hpop

theorem pop_eq_some (rank : Ranking α) (h : q.waiting ≠ []) : ∃ slot r p, q.pop rank = some (slot, r, p) := by
  have hsize : q.size ≠ 0 := mt waiting_eq_nil_iff.2 h
  cases hpop : q.pop rank with
  | none => exact absurd (pop_eq_none_iff.1 hpop) hsize
  | some popped => exact ⟨popped.1, popped.2.1, popped.2.2, rfl⟩

/-! ## Order -/

/-- Slots are ordered as the levels in them. -/
theorem weakOrder (order : TotalPreorder rank) (pool : Array (Record α)) :
    Heap.WeakOrder (before rank pool) (· < pool.size) := by
  have eval : ∀ s t (hs : s < pool.size) (ht : t < pool.size),
      before rank pool s t = (rank pool[s].level pool[t].level == .lt) := fun s t hs ht => by
    simp [before, hs, ht]
  constructor
  · intro s t hs ht h
    rw [eval _ _ hs ht, beq_iff_eq] at h
    rw [eval _ _ ht hs, beq_eq_false_iff_ne, order.not_lt_iff, h]
    decide
  · intro s t u hs ht hu hst htu
    rw [eval _ _ ht hs, beq_eq_false_iff_ne, order.not_lt_iff] at hst
    rw [eval _ _ hu ht, beq_eq_false_iff_ne, order.not_lt_iff] at htu
    rw [eval _ _ hu hs, beq_eq_false_iff_ne, order.not_lt_iff]
    exact order.trans _ _ _ hst htu

theorem ranked_enqueue (order : TotalPreorder rank) {pool : Array (Record α)} {free : List Nat}
    {heap_lt : ∀ s ∈ q.heap, s < pool.size} {slot_lt : slot < pool.size}
    (keeps : ∀ s ∈ q.heap, pool[s]? = q.pool[s]?) (h : q.Ranked rank) :
    (enqueue rank pool free q.heap heap_lt slot slot_lt).Ranked rank := by
  refine Heap.ordered_insert (weakOrder order pool) heap_lt slot_lt ?_
  intro i j hi hj hij
  rw [before, keeps _ (Array.getElem_mem hi), keeps _ (Array.getElem_mem hj)]
  exact h i j hi hj hij

theorem ranked_push (order : TotalPreorder rank) (hq : q.Intact out) (h : q.Ranked rank)
    (hpush : q.push rank r = .ok p) : p.Ranked rank := by
  unfold push at hpush
  split at hpush
  next hfree =>
    cases hpush
    refine ranked_enqueue order (fun s hs => ?_) h
    exact Array.getElem?_push_lt (q.heap_lt s hs) ▸ (Array.getElem?_eq_getElem (q.heap_lt s hs)).symm
  next slot free hfree =>
    have hslot : slot ∈ q.free := by simp [hfree]
    have hlt : slot < q.pool.size := hq.lt_size (by simp [hslot])
    rw [dif_pos hlt] at hpush
    cases hpush
    refine ranked_enqueue order (fun s hs => ?_) h
    rw [Array.getElem?_set_ne hlt]
    rintro rfl
    exact hq.not_mem_heap hslot hs

theorem ranked_pop (order : TotalPreorder rank) (h : q.Ranked rank)
    (hpop : q.pop rank = some (slot, r, p)) : p.Ranked rank := by
  unfold pop at hpop
  split at hpop
  next hpos =>
    simp only [Option.some.injEq, Prod.mk.injEq] at hpop
    obtain ⟨rfl, rfl, rfl⟩ := hpop
    exact Heap.ordered_removeFirst (weakOrder order q.pool) q.heap_lt hpos h
  next => simp at hpop

theorem ranked_release (h : q.Ranked rank) : (q.release slot).Ranked rank := h

/-- No waiting record ranks before the one that is popped. -/
theorem not_lt_of_pop (order : TotalPreorder rank) (h : q.Ranked rank)
    (hpop : q.pop rank = some (slot, r, p)) : ∀ w ∈ q.waiting, rank w.level r.level ≠ .lt := by
  unfold pop at hpop
  split at hpop
  next hpos =>
    simp only [Option.some.injEq, Prod.mk.injEq] at hpop
    obtain ⟨rfl, rfl, rfl⟩ := hpop
    intro w hw
    obtain ⟨s, hs, hget⟩ := List.mem_filterMap.1 hw
    have hlt : q.heap[0] < q.pool.size := q.heap_lt _ (Array.getElem_mem hpos)
    have hfirst := Heap.Ordered.not_before_first (weakOrder order q.pool) q.heap_lt h hpos s
      (by simpa using hs)
    simp only [before, hget, Array.getElem?_eq_getElem hlt, beq_eq_false_iff_ne] at hfirst
    exact hfirst
  next => simp at hpop

end LevelTree.Frontier
