import LevelTree.Extents
import LevelTree.Heap
import LevelTree.Ranking

/-!
# Frontiers

A frontier holds the positions that a flood has seen and not yet entered, lowest level first. Its
records lie in the slots of a pool, and a heap orders the slots of the waiting ones. The slot of a
popped record can be released, and the slot released last is used again first. The main statements
are `size_push` and `size_pop`: a push makes the frontier longer by one, a pop shorter.
-/

namespace LevelTree

/-- A position waiting at its level. -/
structure Record (α : Type) where
  position : Position
  level : α
  /-- The neighbour to go on with when the position is entered again. -/
  cursor : Nat
  deriving Repr, DecidableEq

/-- A queue of records, ordered by level. -/
structure Frontier (α : Type) where
  /-- Every record ever stored, by slot. -/
  pool : Array (Record α)
  /-- The released slots, the latest one first. -/
  free : List Nat
  /-- The slots of the waiting records, in heap order. -/
  heap : Array Nat
  heap_lt : ∀ slot ∈ heap, slot < pool.size

namespace Frontier

variable {α : Type}

/-- Nothing waits. -/
def empty : Frontier α := ⟨#[], [], #[], by simp⟩

instance : Inhabited (Frontier α) := ⟨empty⟩

/-- The number of waiting records. -/
def size (q : Frontier α) : Nat := q.heap.size

/-- The number of slots. -/
def capacity (q : Frontier α) : Nat := q.pool.size

/-- Nothing waits. -/
def isEmpty (q : Frontier α) : Bool := q.heap.isEmpty

/-- The record in slot `s` ranks before the one in slot `t`. -/
def before (rank : Ranking α) (pool : Array (Record α)) (s t : Nat) : Bool :=
  match pool[s]?, pool[t]? with
  | some a, some b => rank a.level b.level == .lt
  | _, _ => false

/-- The record in a slot. -/
def record (q : Frontier α) (slot : Nat) : Except Fault (Record α) :=
  match q.pool[slot]? with
  | some r => .ok r
  | none => .error .outOfRange

/-- A frontier with one more waiting slot. -/
def enqueue (rank : Ranking α) (pool : Array (Record α)) (free : List Nat) (heap : Array Nat)
    (heap_lt : ∀ slot ∈ heap, slot < pool.size) (slot : Nat) (slot_lt : slot < pool.size) :
    Frontier α where
  pool := pool
  free := free
  heap := Heap.insert (before rank pool) heap slot
  heap_lt := fun s hs => (Heap.mem_insert _ hs).elim (heap_lt s) (fun h => h ▸ slot_lt)

theorem lt_size_push (q : Frontier α) (r : Record α) :
    ∀ slot ∈ q.heap, slot < (q.pool.push r).size := fun slot hs => by
  have := q.heap_lt slot hs
  rw [Array.size_push]
  omega

theorem lt_size_set (q : Frontier α) (r : Record α) {i : Nat} (h : i < q.pool.size) :
    ∀ slot ∈ q.heap, slot < (q.pool.set i r).size := fun slot hs => by
  rw [Array.size_set]
  exact q.heap_lt slot hs

/-- Adds a record, in the slot released last or in a new one. -/
def push (q : Frontier α) (rank : Ranking α) (r : Record α) : Except Fault (Frontier α) :=
  match q.free with
  | [] => .ok (enqueue rank (q.pool.push r) [] q.heap (q.lt_size_push r) q.pool.size
      (Array.size_push r ▸ Nat.lt_succ_self _))
  | slot :: free =>
    if h : slot < q.pool.size then
      .ok (enqueue rank (q.pool.set slot r) free q.heap (q.lt_size_set r h) slot
        (Array.size_set h ▸ h))
    else .error .outOfRange

/-- The slot and record that rank first, and the frontier without them; the slot is kept. -/
def pop (q : Frontier α) (rank : Ranking α) : Option (Nat × Record α × Frontier α) :=
  if h : 0 < q.heap.size then
    have hs : q.heap[0] < q.pool.size := q.heap_lt _ (Array.getElem_mem h)
    some (q.heap[0], q.pool[q.heap[0]],
      { q with
        heap := Heap.removeFirst (before rank q.pool) q.heap h
        heap_lt := fun s hs => q.heap_lt s (Heap.mem_of_mem_removeFirst _ hs) })
  else none

/-- Gives a slot back. -/
def release (q : Frontier α) (slot : Nat) : Frontier α := { q with free := slot :: q.free }

/-- Pops a record and releases its slot. -/
def take (q : Frontier α) (rank : Ranking α) : Option (Nat × Record α × Frontier α) :=
  (q.pop rank).map fun (slot, r, rest) => (slot, r, rest.release slot)

@[simp] theorem size_release (q : Frontier α) (slot : Nat) : (q.release slot).size = q.size := rfl

/-- A push makes the frontier longer by one. -/
theorem size_push {q p : Frontier α} {rank : Ranking α} {r : Record α}
    (h : q.push rank r = .ok p) : p.size = q.size + 1 := by
  unfold push at h
  split at h
  · cases h; simp [enqueue, size]
  · split at h
    · cases h; simp [enqueue, size]
    · simp at h

/-- A pop makes the frontier shorter by one. -/
theorem size_pop {q p : Frontier α} {rank : Ranking α} {slot : Nat} {r : Record α}
    (h : q.pop rank = some (slot, r, p)) : p.size + 1 = q.size := by
  unfold pop at h
  split at h
  · cases h; simp [size]; omega
  · simp at h

theorem size_take {q p : Frontier α} {rank : Ranking α} {slot : Nat} {r : Record α}
    (h : q.take rank = some (slot, r, p)) : p.size + 1 = q.size := by
  unfold take at h
  cases hp : q.pop rank with
  | none => simp [hp] at h
  | some popped =>
    simp only [hp, Option.map_some, Option.some.injEq] at h
    have := size_pop hp
    rw [← congrArg (·.2.2.size) h]
    simpa using this

/-- A pop finds nothing exactly when nothing waits. -/
theorem pop_eq_none_iff {q : Frontier α} {rank : Ranking α} : q.pop rank = none ↔ q.size = 0 := by
  unfold pop size
  split
  · simp only [reduceCtorEq, false_iff]; omega
  · simp only [true_iff]; omega

/-- Takes all records, first to last, and leaves nothing waiting. -/
def drain (q : Frontier α) (rank : Ranking α) : List (Nat × Record α) × Frontier α :=
  match _h : q.take rank with
  | none => ([], q)
  | some (slot, r, rest) =>
    let (records, last) := rest.drain rank
    ((slot, r) :: records, last)
termination_by q.size
decreasing_by
  have := size_take ‹q.take rank = some (slot, r, rest)›
  omega

end Frontier

end LevelTree
