import LevelTree.Proofs.Frontier.Sessions
import Mathlib.Data.List.Induction
import Mathlib.Data.Set.Insert
import Mathlib.Order.Bounds.Defs

/-!
# The pool of a frontier

Slots are used again, so that a pool is as large as the greatest number of slots that were in use at
one time, and no larger. A record stays in its slot from its push to the release of the slot, whatever
is pushed, popped and released meanwhile. None of this depends on the rankings, which may be another
one for each call (`record_pool`).
-/

namespace LevelTree.Frontier

variable {α : Type} {rank : Ranking α} {q p : Frontier α} {out : List Nat} {r : Record α} {slot : Nat}

/-- The slots of a pool are those that wait, those that are free and those that are out. -/
theorem Intact.capacity_eq (h : q.Intact out) :
    q.size + q.free.length + out.length = q.capacity := by
  have hlength := h.length_eq
  rw [List.length_range, List.length_append, List.length_append, Array.length_toList] at hlength
  exact hlength

/-- What a push does to the pool: the record lies in a slot that was not in use, the slots in use stay
as they are, and there is a new slot only where none is free. -/
structure Stores (q p : Frontier α) (out : List Nat) (r : Record α) (slot : Nat) : Prop where
  unused : slot ∉ q.heap.toList ++ out
  stored : p.pool[slot]? = some r
  heap : p.heap.toList.Perm (slot :: q.heap.toList)
  kept : ∀ s ∈ q.heap.toList ++ out, p.pool[s]? = q.pool[s]?
  grown : p.capacity = q.capacity ∨ p.capacity = q.capacity + 1 ∧ p.free = []

theorem perm_heap_enqueue {pool : Array (Record α)} {free : List Nat}
    (heap_lt : ∀ s ∈ q.heap, s < pool.size) (slot_lt : slot < pool.size) :
    (enqueue rank pool free q.heap heap_lt slot slot_lt).heap.toList.Perm
      (slot :: q.heap.toList) := by
  have hperm := (Heap.insert_perm (before rank pool) q.heap slot).toList
  rw [Array.toList_push] at hperm
  exact hperm.trans (List.perm_append_singleton _ _)

theorem stores_of_push (h : q.Intact out) (pushed : q.push rank r = .ok p) :
    ∃ slot, Stores q p out r slot := by
  have lt_size : ∀ s ∈ q.heap.toList ++ out, s < q.pool.size := by
    intro s hs
    refine h.lt_size ?_
    rcases List.mem_append.1 hs with hs | hs <;> simp [hs]
  unfold push at pushed
  split at pushed
  next hfree =>
    cases pushed
    refine ⟨q.pool.size, fun hmem => Nat.lt_irrefl _ (lt_size _ hmem), by simp [enqueue],
      perm_heap_enqueue _ _, ?_, .inr ⟨by simp [enqueue, capacity], rfl⟩⟩
    intro s hs
    have hlt := lt_size s hs
    exact Array.getElem?_push_lt hlt ▸ (Array.getElem?_eq_getElem hlt).symm
  next slot free hfree =>
    have hslot : slot ∈ q.free := by simp [hfree]
    have hlt : slot < q.pool.size := h.lt_size (by simp [hslot])
    have unused : slot ∉ q.heap.toList ++ out := by
      intro hmem
      rcases List.mem_append.1 hmem with hheap | hout
      · exact h.not_mem_heap hslot (by simpa using hheap)
      · exact (List.nodup_append.1 h.nodup).2.2 slot (by simp [hslot]) slot hout rfl
    rw [dif_pos hlt] at pushed
    cases pushed
    refine ⟨slot, unused, by simp [enqueue, hlt], perm_heap_enqueue _ _, ?_,
      .inl (by simp [enqueue, capacity])⟩
    intro s hs
    refine Array.getElem?_set_ne hlt ?_
    rintro rfl
    exact unused hs

/-- A push makes the pool as large as the number of waiting records, unless it is as large already. -/
theorem capacity_push (h : q.Intact []) (pushed : q.push rank r = .ok p) :
    p.capacity = max q.capacity p.size := by
  obtain ⟨slot, stores⟩ := stores_of_push h pushed
  have hcapacity := (spec_of_push h pushed).1.capacity_eq
  rw [List.length_nil] at hcapacity
  rcases stores.grown with hsame | ⟨hgrown, hfree⟩
  · omega
  · rw [hfree, List.length_nil] at hcapacity
    omega

theorem perm_heap_of_pop (hpop : q.pop rank = some (slot, r, p)) :
    q.heap.toList.Perm (slot :: p.heap.toList) := by
  unfold pop at hpop
  split at hpop
  next hpos =>
    simp only [Option.some.injEq, Prod.mk.injEq] at hpop
    obtain ⟨rfl, rfl, rfl⟩ := hpop
    refine (Heap.removeFirst_perm (before rank q.pool) q.heap hpos).toList.symm.trans ?_
    rw [Array.toList_push]
    exact List.perm_append_singleton _ _
  next => cases hpop

namespace Session

variable {s u v : Session α} {c : Call α} {calls before after between : List (Ranking α × Call α)}

/-! ## Parts of a session -/

theorem run_append (s : Session α) (calls more : List (Ranking α × Call α)) :
    s.run (calls ++ more) = (s.run calls).bind (·.run more) := by
  induction calls generalizing s with
  | nil => rfl
  | cons first calls ih =>
    obtain ⟨rank, c⟩ := first
    rw [List.cons_append, Session.run, Session.run]
    cases hu : s.call rank c with
    | error fault => rfl
    | ok u => exact ih u

/-- A proper sequence of calls is proper up to each of its calls, and from there on. -/
theorem Sound.split (hs : s.Sound) (proper : s.Proper (before ++ after)) :
    ∃ v, s.run before = .ok v ∧ v.Sound ∧ v.Proper after := by
  induction before generalizing s with
  | nil => exact ⟨s, rfl, hs, proper⟩
  | cons first before ih =>
    obtain ⟨rank, c⟩ := first
    obtain ⟨allowed, rest⟩ := proper
    obtain ⟨u, hu, hsound⟩ := hs.call rank allowed
    rw [hu] at rest
    obtain ⟨v, hv, hlast⟩ := ih hsound rest
    exact ⟨v, by rw [Session.run, hu]; exact hv, hlast⟩

theorem Proper.left (proper : s.Proper (before ++ after)) : s.Proper before := by
  induction before generalizing s with
  | nil => trivial
  | cons first before ih =>
    obtain ⟨rank, c⟩ := first
    obtain ⟨allowed, rest⟩ := proper
    refine ⟨allowed, ?_⟩
    cases hu : s.call rank c with
    | error fault => trivial
    | ok u =>
      rw [hu] at rest
      exact ih rest

/-! ## The size of the pool -/

/-- The number of slots that are in use. -/
def load (s : Session α) : Nat := s.queue.size + s.out.length

theorem Sound.load_add (hs : s.Sound) : s.load + s.queue.free.length = s.queue.capacity := by
  have hcapacity := hs.intact.capacity_eq
  rw [List.length_map] at hcapacity
  rw [load]
  omega

/-- A call leaves the pool as large as it is, or makes it one slot larger, where all are in use then. -/
theorem Sound.capacity_call (hs : s.Sound) (hu : s.call rank c = .ok u) (sound : u.Sound) :
    u.queue.capacity = s.queue.capacity ∨
      u.queue.capacity = s.queue.capacity + 1 ∧ u.load = u.queue.capacity := by
  cases c with
  | push r =>
    obtain ⟨queue, hpush, -⟩ := push_spec rank r hs.intact
    obtain ⟨slot, stores⟩ := stores_of_push hs.intact hpush
    simp only [Session.call, hpush, bind, Except.bind, pure, Except.pure] at hu
    cases hu
    rcases stores.grown with hsame | ⟨hcapacity, hfree⟩
    · exact .inl hsame
    · have hload := sound.load_add
      rw [hfree] at hload
      exact .inr ⟨hcapacity, hload⟩
  | pop =>
    cases hpop : s.queue.pop rank with
    | none =>
      simp only [Session.call, hpop, pure, Except.pure] at hu
      cases hu
      exact .inl rfl
    | some popped =>
      obtain ⟨slot, r, queue⟩ := popped
      simp only [Session.call, hpop, pure, Except.pure] at hu
      cases hu
      exact .inl (congrArg Array.size (pop_spec hs.intact hpop).2.2.1)
  | release slot =>
    cases hu
    exact .inl rfl

/-- The numbers of slots in use, at the start and after each of the calls. -/
def loads (calls : List (Ranking α × Call α)) : Set Nat :=
  {n | ∃ before v, before <+: calls ∧ new.run before = .ok v ∧ v.load = n}

theorem loads_concat {first : Ranking α × Call α} (hs : new.run (calls ++ [first]) = .ok s) :
    loads (calls ++ [first]) = insert s.load (loads calls) := by
  ext n
  constructor
  · rintro ⟨before, v, hbefore, hv, rfl⟩
    rcases List.prefix_concat_iff.1 hbefore with rfl | hbefore
    · rw [hs, Except.ok.injEq] at hv
      exact .inl (by rw [hv])
    · exact .inr ⟨before, v, hbefore, hv, rfl⟩
  · rintro (rfl | ⟨before, v, hbefore, hv, rfl⟩)
    · exact ⟨_, s, List.prefix_rfl, hs, rfl⟩
    · exact ⟨before, v, hbefore.trans (List.prefix_append _ _), hv, rfl⟩

/-- The pool is as large as the greatest number of slots that were in use at one time. -/
theorem isGreatest_capacity (proper : new.Proper calls) (hs : new.run calls = .ok s) :
    IsGreatest (loads calls) s.queue.capacity := by
  induction calls using List.reverseRecOn generalizing s with
  | nil =>
    cases hs
    refine ⟨⟨[], new, List.prefix_rfl, rfl, rfl⟩, ?_⟩
    rintro n ⟨before, v, hbefore, hv, rfl⟩
    obtain rfl := List.prefix_nil.1 hbefore
    cases hv
    exact Nat.le_refl _
  | append_singleton calls first ih =>
    obtain ⟨rank, c⟩ := first
    obtain ⟨v, hv, vsound, allowed, -⟩ := sound_new.split proper
    obtain ⟨u, hu, usound⟩ := vsound.call rank allowed
    obtain rfl : u = s := by
      rw [run_append, hv, Except.bind, Session.run, hu] at hs
      exact Except.ok.inj hs
    obtain ⟨attained, greatest⟩ := ih proper.left hv
    rw [loads_concat hs]
    rcases vsound.capacity_call hu usound with hsame | ⟨hgrown, hfull⟩
    · rw [hsame]
      refine ⟨.inr attained, ?_⟩
      rintro n (rfl | hn)
      · have hload := usound.load_add
        omega
      · exact greatest hn
    · refine ⟨.inl hfull.symm, ?_⟩
      rintro n (rfl | hn)
      · exact Nat.le_of_eq hfull
      · have hle := greatest hn
        omega

/-! ## Records in their slots -/

/-- A record waits in a slot, or was popped from it and the slot is still out. -/
def Holds (s : Session α) (slot : Nat) (r : Record α) : Prop :=
  s.queue.record slot = .ok r ∧ (slot ∈ s.queue.heap.toList ∨ (slot, r) ∈ s.out)

theorem record_eq_ok {q : Frontier α} {slot : Nat} {r : Record α} :
    q.record slot = .ok r ↔ q.pool[slot]? = some r := by
  unfold record
  split
  next r' hr => rw [hr, Except.ok.injEq, Option.some.injEq]
  next hr => simp [hr]

/-- Every call but the release of its slot leaves a record where it is. -/
theorem Holds.call (hs : s.Sound) (holds : s.Holds slot r) (keeps : c ≠ .release slot)
    (hu : s.call rank c = .ok u) : u.Holds slot r := by
  obtain ⟨hrecord, hplace⟩ := holds
  rw [record_eq_ok] at hrecord
  cases c with
  | push r' =>
    obtain ⟨queue, hpush, -⟩ := push_spec rank r' hs.intact
    obtain ⟨slot', stores⟩ := stores_of_push hs.intact hpush
    simp only [Session.call, hpush, bind, Except.bind, pure, Except.pure] at hu
    cases hu
    have used : slot ∈ s.queue.heap.toList ++ s.out.map (·.1) := by
      rcases hplace with hheap | hout
      · exact List.mem_append_left _ hheap
      · exact List.mem_append_right _ (List.mem_map_of_mem hout)
    refine ⟨record_eq_ok.2 ((stores.kept slot used).trans hrecord), ?_⟩
    exact hplace.imp_left fun hheap => stores.heap.mem_iff.2 (List.mem_cons_of_mem _ hheap)
  | pop =>
    cases hpop : s.queue.pop rank with
    | none =>
      simp only [Session.call, hpop, pure, Except.pure] at hu
      cases hu
      exact ⟨record_eq_ok.2 hrecord, hplace⟩
    | some popped =>
      obtain ⟨slot', r', queue⟩ := popped
      obtain ⟨-, -, hpool, hfirst⟩ := pop_spec hs.intact hpop
      simp only [Session.call, hpop, pure, Except.pure] at hu
      cases hu
      refine ⟨record_eq_ok.2 (hpool ▸ hrecord), ?_⟩
      rcases hplace with hheap | hout
      · -- the record that is popped is the one in question exactly when the slots agree
        rcases List.mem_cons.1 ((perm_heap_of_pop hpop).mem_iff.1 hheap) with rfl | hlater
        · obtain rfl : r = r' := Option.some.inj (hrecord.symm.trans hfirst)
          exact .inr List.mem_cons_self
        · exact .inl hlater
      · exact .inr (List.mem_cons_of_mem _ hout)
  | release slot' =>
    cases hu
    refine ⟨record_eq_ok.2 hrecord, hplace.imp_right fun hout => ?_⟩
    refine List.mem_filter.2 ⟨hout, ?_⟩
    simp only [ne_eq, decide_not, Bool.not_eq_eq_eq_not, Bool.not_true, decide_eq_false_iff_not]
    rintro rfl
    exact keeps rfl

/-- A record that was pushed stays in its slot up to the release of the slot. -/
theorem Sound.holds_push (hs : s.Sound) (proper : s.Proper ((rank, .push r) :: after)) :
    ∃ u slot, s.call rank (.push r) = .ok u ∧
      slot ∉ s.queue.heap.toList ++ s.out.map (·.1) ∧
      u.queue.heap.toList.Perm (slot :: s.queue.heap.toList) ∧
      ∀ between, between <+: after → (∀ rank', (rank', .release slot) ∉ between) →
        ∃ w, u.run between = .ok w ∧ w.Holds slot r := by
  obtain ⟨queue, hpush, -⟩ := push_spec rank r hs.intact
  obtain ⟨slot, stores⟩ := stores_of_push hs.intact hpush
  obtain ⟨u, hu, usound⟩ := hs.push rank r
  obtain ⟨-, rest⟩ := proper
  rw [hu] at rest
  have heq : u.queue = queue := by
    simp only [Session.call, hpush, bind, Except.bind, pure, Except.pure] at hu
    cases hu
    rfl
  have hheap : u.queue.heap.toList.Perm (slot :: s.queue.heap.toList) := heq ▸ stores.heap
  refine ⟨u, slot, hu, stores.unused, hheap, ?_⟩
  rintro between ⟨later, rfl⟩ unreleased
  have holds : u.Holds slot r :=
    ⟨record_eq_ok.2 (heq ▸ stores.stored), .inl (hheap.mem_iff.2 List.mem_cons_self)⟩
  obtain ⟨w, hw, -, hlast⟩ := usound.run (P := (Holds · slot r)) holds (Proper.left rest)
    fun s u rank' c hmem hs holds hu => by
      refine Holds.call hs holds ?_ hu
      rintro rfl
      exact unreleased rank' hmem
  exact ⟨w, hw, hlast⟩

end Session

open Session in
/-- What a session, after a sequence of calls on a new frontier, can expect of the pool. -/
structure Pooled (calls : List (Ranking α × Call α)) (s : Session α) : Prop where
  /-- No slot waits, is free or is out twice, and none is in two of these states. -/
  nodup : (s.queue.heap.toList ++ s.queue.free ++ s.out.map (·.1)).Nodup
  slots : ∀ slot, (slot ∈ s.queue.heap.toList ∨ slot ∈ s.queue.free ∨ slot ∈ s.out.map (·.1)) ↔
    slot < s.queue.capacity
  /-- A pushed record gets a slot that is not in use, and is in that slot, as it was pushed, after
  each of the calls up to the release of the slot. -/
  kept : ∀ before rank r after, calls = before ++ (rank, .push r) :: after →
    ∃ v u slot, new.run before = .ok v ∧ v.call rank (.push r) = .ok u ∧
      slot ∉ v.queue.heap.toList ++ v.out.map (·.1) ∧
      u.queue.heap.toList.Perm (slot :: v.queue.heap.toList) ∧
      ∀ between, between <+: after → (∀ rank', (rank', .release slot) ∉ between) →
        ∃ w, u.run between = .ok w ∧ w.Holds slot r
  balanced : s.pushed.Perm (s.popped ++ s.queue.waiting)
  pop_eq_none : ∀ rank, s.queue.pop rank = none ↔ s.queue.waiting = []
  /-- The pool has as many slots as were ever in use at one time. -/
  capacity : IsGreatest (loads calls) s.queue.capacity

/-- After every proper sequence of calls, whatever their rankings are, the slots of the pool are
accounted for, and records have kept theirs. -/
theorem record_pool (calls : List (Ranking α × Call α)) (proper : Session.new.Proper calls) :
    ∃ s, Session.new.run calls = .ok s ∧ Pooled calls s := by
  obtain ⟨s, hrun, hs, -⟩ := Session.sound_new.run (P := fun _ => True) trivial proper
    fun _ _ _ _ _ _ _ _ => trivial
  refine ⟨s, hrun, hs.intact.nodup, fun slot => ?_, ?_, hs.balanced, fun rank => ?_,
    Session.isGreatest_capacity proper hrun⟩
  · have hmem : slot ∈ s.queue.heap.toList ++ s.queue.free ++ s.out.map (·.1) ↔
        slot ∈ List.range s.queue.capacity := hs.intact.mem_iff
    rwa [List.mem_append, List.mem_append, or_assoc, List.mem_range] at hmem
  · rintro before rank r after rfl
    obtain ⟨v, hv, vsound, rest⟩ := Session.sound_new.split proper
    obtain ⟨u, slot, hpushed⟩ := vsound.holds_push rest
    exact ⟨v, u, slot, hv, hpushed⟩
  · rw [pop_eq_none_iff, waiting_eq_nil_iff]

/-- Each call has a ranking of its own, two of them no order; one slot is used again while
another one stays out. -/
def unruly : List (Ranking Nat × Call Nat) :=
  [(.ofKey Int.ofNat, .push ⟨[0], 5, 0⟩), (fun _ _ => .lt, .push ⟨[1], 3, 0⟩),
    (.ofKey (-Int.ofNat ·), .pop), (.ofKey Int.ofNat, .push ⟨[2], 7, 1⟩), (fun _ _ => .lt, .pop),
    (fun _ _ => .gt, .release 1), (.ofKey Int.ofNat, .push ⟨[3], 4, 2⟩)]

theorem record_pool_unruly : Session.new.Proper unruly ∧
    ∃ s, Session.new.run unruly = .ok s ∧ s.pushed.length = 4 ∧ s.queue.capacity = 3 ∧
      s.out = [(0, ⟨[0], 5, 0⟩)] ∧ Pooled unruly s := by
  have proper : Session.new.Proper unruly := by decide +kernel
  have heval : (Session.new.run unruly).map
      (fun s => (s.pushed.length, s.queue.capacity, s.out)) = .ok (4, 3, [(0, ⟨[0], 5, 0⟩)]) := by
    decide +kernel
  obtain ⟨s, hrun, pooled⟩ := record_pool unruly proper
  obtain ⟨hpushed, hcapacity, hout⟩ : s.pushed.length = 4 ∧ s.queue.capacity = 3 ∧
      s.out = [(0, ⟨[0], 5, 0⟩)] := by simpa [hrun, Except.map] using heval
  exact ⟨proper, s, hrun, hpushed, hcapacity, hout, pooled⟩

end LevelTree.Frontier
