import LevelTree.Proofs.Entries
import LevelTree.Proofs.Frontier

/-!
# Sessions with a frontier

A session goes through any sequence of pushes, pops and releases, and remembers what was pushed and
popped and which slots are out. Where a slot is released only while it is out, every call succeeds and
the frontier holds what was pushed and not popped (`Sound.call`), whatever rankings the calls use. With
one order throughout, the frontier is a priority queue (`priority_queue`).
-/

namespace LevelTree.Frontier

variable {α : Type} {rank : Ranking α} {q : Frontier α} {out : List Nat}

/-- A call on a frontier. -/
inductive Call (α : Type) where
  | push (r : Record α)
  | pop
  | release (slot : Nat)
  deriving Repr, DecidableEq

/-- A frontier and what was done with it. -/
structure Session (α : Type) where
  queue : Frontier α
  /-- The slots that were popped and not released, with the records popped from them. -/
  out : List (Nat × Record α)
  /-- The records that were pushed, the last one first. -/
  pushed : List (Record α)
  /-- The records that were popped, the last one first. -/
  popped : List (Record α)

namespace Session

/-- Nothing was done yet. -/
def new : Session α := ⟨.empty, [], [], []⟩

/-- The session after a call under a ranking. -/
def call (s : Session α) (rank : Ranking α) : Call α → Except Fault (Session α)
  | .push r => do
    let queue ← s.queue.push rank r
    return { s with queue, pushed := r :: s.pushed }
  | .pop =>
    match s.queue.pop rank with
    | none => return s
    | some (slot, r, queue) =>
      return { s with queue, out := (slot, r) :: s.out, popped := r :: s.popped }
  | .release slot =>
    return { s with queue := s.queue.release slot, out := Entries.without s.out slot }

/-- The session after a sequence of calls, each under its own ranking. -/
def run (s : Session α) : List (Ranking α × Call α) → Except Fault (Session α)
  | [] => .ok s
  | (rank, c) :: calls => do
    let u ← s.call rank c
    u.run calls

/-- A slot that is released is out. -/
def Allows (s : Session α) : Call α → Prop
  | .release slot => slot ∈ s.out.map (·.1)
  | .push _ | .pop => True

/-- Every call is allowed when its turn comes. -/
def Proper (s : Session α) : List (Ranking α × Call α) → Prop
  | [] => True
  | (rank, c) :: calls => s.Allows c ∧
    match s.call rank c with
    | .ok u => u.Proper calls
    | .error _ => True

instance decidableAllows (s : Session α) : (c : Call α) → Decidable (s.Allows c)
  | .release slot => inferInstanceAs (Decidable (slot ∈ s.out.map (·.1)))
  | .push _ | .pop => inferInstanceAs (Decidable True)

instance decidableProper : (s : Session α) → (calls : List (Ranking α × Call α)) →
    Decidable (s.Proper calls)
  | _, [] => inferInstanceAs (Decidable True)
  | s, (rank, c) :: calls =>
    have : Decidable (match s.call rank c with
        | .ok u => u.Proper calls
        | .error _ => True) :=
      match s.call rank c with
      | .ok u => decidableProper u calls
      | .error _ => inferInstanceAs (Decidable True)
    inferInstanceAs (Decidable (s.Allows c ∧ _))

/-- The slots that are out are not used otherwise and keep their records, and what waits is what was
pushed and not popped. -/
structure Sound (s : Session α) : Prop where
  intact : s.queue.Intact (s.out.map (·.1))
  balanced : s.pushed.Perm (s.popped ++ s.queue.waiting)
  kept : ∀ e ∈ s.out, s.queue.pool[e.1]? = some e.2

variable {s u : Session α} {c : Call α} {calls : List (Ranking α × Call α)}

theorem sound_new : (new : Session α).Sound where
  intact := intact_empty
  balanced := .refl _
  kept := by simp [new]

/-! ## Calls -/

theorem Sound.push (rank : Ranking α) (r : Record α) (hs : s.Sound) :
    ∃ u, s.call rank (.push r) = .ok u ∧ u.Sound := by
  obtain ⟨queue, hpush, hintact, hwaiting, hkept⟩ := push_spec rank r hs.intact
  refine ⟨{ s with queue, pushed := r :: s.pushed }, ?_, hintact, ?_, ?_⟩
  · simp [call, hpush, bind, Except.bind, pure, Except.pure]
  · have hcons : (r :: s.pushed).Perm (r :: (s.popped ++ s.queue.waiting)) := hs.balanced.cons r
    exact (hcons.trans List.perm_middle.symm).trans (hwaiting.symm.append_left _)
  · intro e he
    rw [hkept e.1 (List.mem_map_of_mem he)]
    exact hs.kept e he

theorem Sound.pop (rank : Ranking α) (hs : s.Sound) :
    ∃ u, s.call rank .pop = .ok u ∧ u.Sound := by
  cases hpop : s.queue.pop rank with
  | none => exact ⟨s, by simp [call, hpop, pure, Except.pure], hs⟩
  | some popped =>
    obtain ⟨slot, r, queue⟩ := popped
    obtain ⟨hintact, hwaiting, hpool, hslot⟩ := pop_spec hs.intact hpop
    refine ⟨{ s with queue, out := (slot, r) :: s.out, popped := r :: s.popped }, ?_, hintact, ?_, ?_⟩
    · simp [call, hpop, pure, Except.pure]
    · exact (hs.balanced.trans (hwaiting.append_left _)).trans List.perm_middle
    · intro e he
      rw [hpool]
      rcases List.mem_cons.1 he with rfl | he
      · exact hslot
      · exact hs.kept e he

theorem Sound.release {slot : Nat} (rank : Ranking α) (hs : s.Sound)
    (hout : slot ∈ s.out.map (·.1)) : ∃ u, s.call rank (.release slot) = .ok u ∧ u.Sound := by
  refine ⟨_, rfl, ?_, hs.balanced, ?_⟩
  · have hnodup : (s.out.map (·.1)).Nodup := (List.nodup_append.1 hs.intact.nodup).2.1
    obtain ⟨⟨slot', r⟩, he, rfl⟩ := List.mem_map.1 hout
    have hperm := (Entries.perm_cons_without hnodup (Entries.lookup_of_mem hnodup he)).map (·.1)
    have hintact : s.queue.Intact (slot' :: (Entries.without s.out slot').map (·.1)) :=
      (hperm.symm.append_left _).trans hs.intact
    exact hintact.release
  · intro e he
    exact hs.kept e (List.mem_of_mem_filter he)

/-- A call that is allowed succeeds, and keeps the session sound. -/
theorem Sound.call (rank : Ranking α) (hs : s.Sound) (allowed : s.Allows c) :
    ∃ u, s.call rank c = .ok u ∧ u.Sound := by
  cases c with
  | push r => exact hs.push rank r
  | pop => exact hs.pop rank
  | release slot => exact hs.release rank allowed

/-- A proper sequence of calls succeeds, and what each of its calls keeps holds at the end. -/
theorem Sound.run {P : Session α → Prop} (hs : s.Sound) (hp : P s) (proper : s.Proper calls)
    (keeps : ∀ s u rank c, (rank, c) ∈ calls → s.Sound → P s → s.call rank c = .ok u → P u) :
    ∃ u, s.run calls = .ok u ∧ u.Sound ∧ P u := by
  induction calls generalizing s with
  | nil => exact ⟨s, rfl, hs, hp⟩
  | cons first calls ih =>
    obtain ⟨rank, c⟩ := first
    obtain ⟨allowed, rest⟩ := proper
    obtain ⟨u, hu, hsound⟩ := hs.call rank allowed
    rw [hu] at rest
    obtain ⟨v, hv, hlast⟩ := ih hsound (keeps s u rank c List.mem_cons_self hs hp hu) rest
      fun s u rank c hmem => keeps s u rank c (List.mem_cons_of_mem _ hmem)
    exact ⟨v, by rw [Session.run, hu]; exact hv, hlast⟩

/-! ## One order -/

/-- Calls under an order keep the heap in order. -/
theorem ranked_call (order : TotalPreorder rank) (hs : s.Sound) (ranked : s.queue.Ranked rank)
    (hu : s.call rank c = .ok u) : u.queue.Ranked rank := by
  cases c with
  | push r =>
    obtain ⟨queue, hpush, -⟩ := push_spec rank r hs.intact
    simp only [Session.call, hpush, bind, Except.bind, pure, Except.pure] at hu
    cases hu
    exact ranked_push order hs.intact ranked hpush
  | pop =>
    cases hpop : s.queue.pop rank with
    | none =>
      simp only [Session.call, hpop, pure, Except.pure] at hu
      cases hu
      exact ranked
    | some popped =>
      simp only [Session.call, hpop, pure, Except.pure] at hu
      cases hu
      exact ranked_pop order ranked hpop
  | release slot =>
    cases hu
    exact ranked_release ranked

end Session

/-- Draining takes every waiting record, and none before one that ranks before it. -/
theorem drain_spec (order : TotalPreorder rank) (hq : q.Intact out) (ranked : q.Ranked rank) :
    ((q.drain rank).1.map (·.2)).Perm q.waiting ∧
      ((q.drain rank).1.map (·.2)).Pairwise (fun a b => rank a.level b.level ≠ .gt) ∧
      (q.drain rank).2.size = 0 := by
  fun_induction drain q rank with
  | case1 q htake =>
    have hsize : q.size = 0 := pop_eq_none_iff.1 (by simpa [take] using htake)
    exact ⟨by simp [waiting_eq_nil_iff.2 hsize], .nil, hsize⟩
  | case2 q slot r rest htake records last hrest ih =>
    obtain ⟨⟨slot', r', p⟩, hpop, heq⟩ := Option.map_eq_some_iff.1 htake
    obtain ⟨rfl, rfl, rfl⟩ : slot' = slot ∧ r' = r ∧ p.release slot' = rest := by simpa using heq
    obtain ⟨hintact, hwaiting, -⟩ := pop_spec hq hpop
    obtain ⟨hperm, hsorted, hsize⟩ := ih hintact.release (ranked_release (ranked_pop order ranked hpop))
    rw [hrest] at hperm hsorted hsize
    refine ⟨(hperm.cons r').trans hwaiting.symm, ?_, hsize⟩
    refine List.pairwise_cons.2 ⟨fun w hw => ?_, hsorted⟩
    have hmem : w ∈ q.waiting := hwaiting.mem_iff.2 (List.mem_cons_of_mem _ (hperm.mem_iff.1 hw))
    exact order.not_lt_iff.1 (not_lt_of_pop order ranked hpop w hmem)

/-- What a session can expect of a priority queue. -/
structure Serves (rank : Ranking α) (s : Session α) : Prop where
  size : s.queue.size + s.popped.length = s.pushed.length
  /-- A pop takes a record that was pushed and not popped, and ranks after no other such record. -/
  first : 0 < s.queue.size → ∃ slot r queue others, s.queue.pop rank = some (slot, r, queue) ∧
    queue.record slot = .ok r ∧ s.pushed.Perm (s.popped ++ r :: others) ∧
    ∀ w ∈ others, rank w.level r.level ≠ .lt
  /-- Draining takes all records that were pushed and not popped, in order. -/
  drained : ∃ records queue, s.queue.drain rank = (records, queue) ∧ queue.size = 0 ∧
    s.pushed.Perm (s.popped ++ records.map (·.2)) ∧
    (records.map (·.2)).Pairwise fun a b => rank a.level b.level ≠ .gt

theorem serves_of_sound (order : TotalPreorder rank) {s : Session α} (hs : s.Sound)
    (ranked : s.queue.Ranked rank) : Serves rank s where
  size := by
    have hlength := hs.balanced.length_eq
    rw [List.length_append, length_waiting] at hlength
    omega
  first := by
    intro hpos
    have hwaits : s.queue.waiting ≠ [] := fun hnil => by
      have hzero := waiting_eq_nil_iff.1 hnil
      omega
    obtain ⟨slot, r, queue, hpop⟩ := pop_eq_some rank hwaits
    obtain ⟨-, hwaiting, hpool, hslot⟩ := pop_spec hs.intact hpop
    refine ⟨slot, r, queue, queue.waiting, hpop, ?_, ?_, fun w hw => ?_⟩
    · rw [record, hpool, hslot]
    · exact hs.balanced.trans (hwaiting.append_left _)
    · exact not_lt_of_pop order ranked hpop w (hwaiting.mem_iff.2 (List.mem_cons_of_mem _ hw))
  drained := by
    obtain ⟨hperm, hsorted, hsize⟩ := drain_spec order hs.intact ranked
    exact ⟨_, _, rfl, hsize, hs.balanced.trans (hperm.symm.append_left _), hsorted⟩

/-- Under an order, a frontier is a priority queue after every proper sequence of calls. -/
theorem priority_queue (order : TotalPreorder rank) (calls : List (Call α))
    (proper : Session.new.Proper (calls.map fun c => (rank, c))) :
    ∃ s, Session.new.run (calls.map fun c => (rank, c)) = .ok s ∧ Serves rank s := by
  obtain ⟨s, hrun, hs, ranked⟩ := Session.sound_new.run (P := fun s => s.queue.Ranked rank)
    ranked_empty proper fun s u rank' c hmem hs ranked hu => by
      obtain ⟨c', -, heq⟩ := List.mem_map.1 hmem
      obtain ⟨rfl, rfl⟩ := Prod.mk.inj heq
      exact Session.ranked_call order hs ranked hu
  exact ⟨s, hrun, serves_of_sound order hs ranked⟩

/-- The slot of the first pop is used again, for a record that ranks between the two that wait. -/
def reuse : List (Call Nat) :=
  [.push ⟨[0], 5, 0⟩, .push ⟨[1], 3, 0⟩, .push ⟨[2], 3, 1⟩, .pop, .release 1, .push ⟨[3], 4, 2⟩]

theorem priority_queue_reuse : TotalPreorder (Ranking.ofKey Int.ofNat) ∧
    Session.new.Proper (reuse.map fun c => (Ranking.ofKey Int.ofNat, c)) ∧
    ∃ s, Session.new.run (reuse.map fun c => (Ranking.ofKey Int.ofNat, c)) = .ok s ∧
      s.popped = [⟨[1], 3, 0⟩] ∧ s.queue.size = 3 ∧ s.queue.capacity = 3 ∧
      Serves (Ranking.ofKey Int.ofNat) s := by
  have proper : Session.new.Proper (reuse.map fun c => (Ranking.ofKey Int.ofNat, c)) := by
    decide +kernel
  have heval : (Session.new.run (reuse.map fun c => (Ranking.ofKey Int.ofNat, c))).map
      (fun s => (s.popped, s.queue.size, s.queue.capacity)) = .ok ([⟨[1], 3, 0⟩], 3, 3) := by
    decide +kernel
  obtain ⟨s, hrun, serves⟩ := priority_queue (.ofKey _) reuse proper
  obtain ⟨hpopped, hsize, hcapacity⟩ : s.popped = [⟨[1], 3, 0⟩] ∧ s.queue.size = 3 ∧
      s.queue.capacity = 3 := by simpa [hrun, Except.map] using heval
  exact ⟨.ofKey _, proper, s, hrun, hpopped, hsize, hcapacity, serves⟩

end LevelTree.Frontier
