import LevelTree.Proofs.Flood.Counts
import LevelTree.Proofs.Flood.Coverage
import LevelTree.Proofs.Flood.Towers
import LevelTree.Proofs.Flood.Visits

/-!
# Floods side by side

Two terrains of the same shape, whose levels are related so that the rankings agree on them, are
flooded move by move in the same way, over any two floors that are not exceeded: the same positions are
seen, wait in the same slots and are entered in the same order, and the towers keep their positions in
common (`Parallel.move`). So the two floods come to their ends together (`exists_twins`), and differ
there only in what is left of their floors.
-/

namespace LevelTree

open List (Forall₂)

variable {α β : Type} {R : α → β → Prop} {rank : Ranking α} {rank' : Ranking β} {t : Terrain α}
  {t' : Terrain β}

/-- The rankings rank related levels in the same way. -/
def Agree (R : α → β → Prop) (rank : Ranking α) (rank' : Ranking β) : Prop :=
  ∀ a b c d, R a c → R b d → rank a b = rank' c d

/-- The terrains have the same sides, and related levels at the same positions. -/
structure Terrain.Echoes (R : α → β → Prop) (t : Terrain α) (t' : Terrain β) : Prop where
  sides : t.sides = t'.sides
  levels : ∀ p, Option.Rel R (t.level? p) (t'.level? p)

theorem Terrain.Echoes.rel (h : t.Echoes R t') {p : Position} {a : α} {b : β}
    (ha : t.level? p = some a) (hb : t'.level? p = some b) : R a b := by
  have hrel := h.levels p
  rw [ha, hb] at hrel
  cases hrel with
  | some hab => exact hab

theorem Terrain.Echoes.readable_iff (h : t.Echoes R t') {p : Position} :
    t.Readable p ↔ t'.Readable p := by
  have hrel := h.levels p
  rw [Terrain.Readable, Terrain.Readable, h.sides]
  refine and_congr_right fun _ => ?_
  generalize t.level? p = o at hrel ⊢
  generalize t'.level? p = o' at hrel ⊢
  cases hrel <;> simp

/-! ## Frontiers -/

namespace Frontier

/-- The same position and cursor at related levels. -/
structure RecordEchoes (R : α → β → Prop) (r : Record α) (r' : Record β) : Prop where
  position : r.position = r'.position
  level : R r.level r'.level
  cursor : r.cursor = r'.cursor

/-- The pools are of one size, and their records are related. -/
structure PoolEchoes (R : α → β → Prop) (pool : Array (Record α)) (pool' : Array (Record β)) :
    Prop where
  size : pool.size = pool'.size
  records : ∀ i (h : i < pool.size) (h' : i < pool'.size), RecordEchoes R pool[i] pool'[i]

/-- The frontiers have related records in the same slots. -/
structure Echoes (R : α → β → Prop) (q : Frontier α) (q' : Frontier β) : Prop where
  pool : PoolEchoes R q.pool q'.pool
  free : q.free = q'.free
  heap : q.heap = q'.heap

variable {pool : Array (Record α)} {pool' : Array (Record β)} {q p : Frontier α}
  {q' p' : Frontier β} {r : Record α} {r' : Record β} {slot slot' : Nat}

theorem echoes_empty : (empty : Frontier α).Echoes R (empty : Frontier β) where
  pool := ⟨rfl, fun _ h => absurd h (Nat.not_lt_zero _)⟩
  free := rfl
  heap := rfl

theorem PoolEchoes.push (h : PoolEchoes R pool pool') (hr : RecordEchoes R r r') :
    PoolEchoes R (pool.push r) (pool'.push r') where
  size := by simp [h.size]
  records := fun i hi hi' => by
    rw [Array.getElem_push, Array.getElem_push]
    by_cases hlt : i < pool.size
    · rw [dif_pos hlt, dif_pos (h.size ▸ hlt)]
      exact h.records i hlt _
    · rw [dif_neg hlt, dif_neg (h.size ▸ hlt)]
      exact hr

theorem PoolEchoes.set (h : PoolEchoes R pool pool') (hr : RecordEchoes R r r')
    (hs : slot < pool.size) (hs' : slot < pool'.size) :
    PoolEchoes R (pool.set slot r) (pool'.set slot r') where
  size := by simp [h.size]
  records := fun i hi hi' => by
    rw [Array.getElem_set, Array.getElem_set]
    split
    · exact hr
    · exact h.records i _ _

/-- Slots of related pools come before each other in the same way. -/
theorem before_eq (agree : Agree R rank rank') (h : PoolEchoes R pool pool') :
    before rank pool = before rank' pool' := by
  funext s u
  by_cases hs : s < pool.size
  · by_cases hu : u < pool.size
    · have hs' : s < pool'.size := h.size ▸ hs
      have hu' : u < pool'.size := h.size ▸ hu
      simp only [before, Array.getElem?_eq_getElem hs, Array.getElem?_eq_getElem hu,
        Array.getElem?_eq_getElem hs', Array.getElem?_eq_getElem hu']
      rw [agree _ _ _ _ (h.records s hs hs').level (h.records u hu hu').level]
    · have hu' : ¬ u < pool'.size := h.size ▸ hu
      simp [before, hu, hu']
  · have hs' : ¬ s < pool'.size := h.size ▸ hs
    simp [before, hs, hs']

theorem echoes_enqueue (agree : Agree R rank rank') (hpool : PoolEchoes R pool pool')
    (hheap : q.heap = q'.heap) {free : List Nat} {heap_lt : ∀ s ∈ q.heap, s < pool.size}
    {heap_lt' : ∀ s ∈ q'.heap, s < pool'.size} {slot_lt : slot < pool.size}
    {slot_lt' : slot < pool'.size} :
    (enqueue rank pool free q.heap heap_lt slot slot_lt).Echoes R
      (enqueue rank' pool' free q'.heap heap_lt' slot slot_lt') where
  pool := hpool
  free := rfl
  heap := by simp only [enqueue, before_eq agree hpool, hheap]

theorem Echoes.push (agree : Agree R rank rank') (h : q.Echoes R q') (hr : RecordEchoes R r r')
    (pushed : q.push rank r = .ok p) (pushed' : q'.push rank' r' = .ok p') : p.Echoes R p' := by
  have hfree := h.free
  unfold Frontier.push at pushed pushed'
  split at pushed
  next hnil =>
    rw [hnil] at hfree
    rw [← hfree] at pushed'
    cases pushed
    cases pushed'
    have hsize := h.pool.size
    simp only [← hsize]
    exact echoes_enqueue agree (h.pool.push hr) h.heap
  next slot free hcons =>
    rw [hcons] at hfree
    rw [← hfree] at pushed'
    dsimp only at pushed'
    split at pushed
    next hlt =>
      rw [dif_pos (h.pool.size ▸ hlt)] at pushed'
      cases pushed
      cases pushed'
      exact echoes_enqueue agree (h.pool.set hr hlt (h.pool.size ▸ hlt)) h.heap
    next => cases pushed

theorem Echoes.pop (agree : Agree R rank rank') (h : q.Echoes R q')
    (popped : q.pop rank = some (slot, r, p)) (popped' : q'.pop rank' = some (slot', r', p')) :
    slot = slot' ∧ RecordEchoes R r r' ∧ p.Echoes R p' := by
  unfold Frontier.pop at popped popped'
  split at popped
  next hpos =>
    have hheap := h.heap
    rw [dif_pos (hheap ▸ hpos)] at popped'
    simp only [Option.some.injEq, Prod.mk.injEq] at popped popped'
    obtain ⟨rfl, rfl, rfl⟩ := popped
    obtain ⟨rfl, rfl, rfl⟩ := popped'
    refine ⟨by simp only [hheap], ?_, h.pool, h.free, ?_⟩
    · simp only [← hheap]
      exact h.pool.records _ _ _
    · simp only [before_eq agree h.pool, hheap]
  next => cases popped

theorem Echoes.release (h : q.Echoes R q') (slot : Nat) : (q.release slot).Echoes R (q'.release slot) where
  pool := h.pool
  free := congrArg (slot :: ·) h.free
  heap := h.heap

end Frontier

namespace Flood

/-! ## Moves of one flood -/

section Inversion

variable {s v : State α}

theorem Moves.looks (moves : Moves rank t s v) (phase : s.phase = .survey)
    (left : s.walk.hasNext = true) : Looks rank t s v := by
  cases moves with
  | look _ _ looks => exact looks
  | arrive _ done => simp [left] at done
  | stay hphase => simp [phase] at hphase
  | climb hphase => simp [phase] at hphase
  | close hphase => simp [phase] at hphase

theorem Moves.eq_arrive (moves : Moves rank t s v) (phase : s.phase = .survey)
    (done : s.walk.hasNext = false) : v = s.arrive := by
  cases moves with
  | look _ left => simp [done] at left
  | arrive => rfl
  | stay hphase => simp [phase] at hphase
  | climb hphase => simp [phase] at hphase
  | close hphase => simp [phase] at hphase

theorem Moves.exists_popped (moves : Moves rank t s v) (phase : s.phase = .rise) :
    ∃ slot r left, s.frontier.pop rank = some (slot, r, left) ∧
      (rank r.level s.level = .eq ∧ v = s.enter slot r left ∨
        rank r.level s.level ≠ .eq ∧ v = (s.enter slot r left).settleAt rank r.level) := by
  cases moves with
  | look hphase => simp [phase] at hphase
  | arrive hphase => simp [phase] at hphase
  | stay _ popped same => exact ⟨_, _, _, popped, .inl ⟨same, rfl⟩⟩
  | climb _ popped other => exact ⟨_, _, _, popped, .inr ⟨other, rfl⟩⟩
  | close hphase => simp [phase] at hphase

theorem Moves.eq_close (moves : Moves rank t s v) (phase : s.phase = .close) : v = s.close rank := by
  cases moves with
  | look hphase => simp [phase] at hphase
  | arrive hphase => simp [phase] at hphase
  | stay hphase => simp [phase] at hphase
  | climb hphase => simp [phase] at hphase
  | close => rfl

theorem Found.unique {p q : Position} {a b : α} (found : Found t s p a) (found' : Found t s q b) :
    p = q ∧ a = b := by
  obtain rfl : p = q := by simpa using found.neighbor.symm.trans found'.neighbor
  exact ⟨rfl, Option.some.inj (found.level.symm.trans found'.level)⟩

theorem Found.not_examined {q : Position} {a : α} (found : Found t s q a) :
    ¬ Examined t s.visited s.position (s.walk.cursor + 1) := fun examined =>
  found.unseen (examined _ (Nat.lt_succ_self _) q found.neighbor found.readable)

end Inversion

section Starts

variable {s : State α} {lastLevel : α} {p : Position}

/-- A flood starts with one position marked, the one it stands at. -/
theorem Starts.marks_iff (hs : Starts t lastLevel s) : s.visited.Marks p ↔ p = s.position := by
  have hadded : s.added = [] := by
    rw [State.added, hs.log]
    rfl
  rw [hs.accounted.tallied.marks, hadded, State.awaited_of_survey hs.phase, hs.frontier]
  simp

theorem Starts.position_eq (hs : Starts t lastLevel s) : s.position = Extents.origin t.sides :=
  (hs.marks_iff.1 hs.accounted.origin).symm

end Starts

/-! ## Towers side by side -/

namespace Tower

/-- The regions have the same positions, at related levels. -/
structure Echoes (R : α → β → Prop) (w : Tower α) (x : Tower β) : Prop where
  top : LevelTree.Echoes R w.top x.top
  under : Forall₂ (LevelTree.Echoes R) w.under x.under
  done : Forall₂ (LevelTree.Echoes R) w.done x.done

variable {w : Tower α} {x : Tower β} {a : α} {b : β}

theorem Echoes.sink (h : w.Echoes R x) (hab : R a b) : (w.sink a).Echoes R (x.sink b) where
  top := .ofLevel hab
  under := .cons h.top h.under
  done := h.done

theorem Echoes.add (h : w.Echoes R x) (p : Position) : (w.add p).Echoes R (x.add p) where
  top := h.top.add p
  under := h.under
  done := h.done

theorem Echoes.close (h : w.Echoes R x) : Forall₂ (LevelTree.Echoes R) w.close x.close :=
  List.rel_append h.done (.cons h.top .nil)

/-- The same region is raised, or merged, in both towers. -/
theorem Echoes.climb (agree : Agree R rank rank') (h : w.Echoes R x) (hab : R a b) :
    (w.climb rank a).Echoes R (x.climb rank' b) := by
  have raised := h.top.settled.raise hab
  unfold Tower.climb
  cases hunder : w.under with
  | nil =>
    have hnil : x.under = [] := List.forall₂_nil_left_iff.1 (hunder ▸ h.under)
    rw [hnil]
    exact ⟨raised, .nil, h.close⟩
  | cons g under =>
    obtain ⟨k, others, hgk, hothers, heq⟩ := List.forall₂_cons_left_iff.1 (hunder ▸ h.under)
    rw [heq]
    dsimp only
    rw [agree _ _ _ _ hab hgk.level]
    split
    · exact ⟨raised, .cons hgk hothers, h.close⟩
    · exact ⟨hgk.merge h.top.settled, hothers, h.close⟩

end Tower

/-! ## States side by side -/

/-- The floods are at the same point, whatever is on their stacks and in their logs. -/
structure Alike (R : α → β → Prop) (s : State α) (u : State β) : Prop where
  visited : ∀ p, s.visited.Marks p ↔ u.visited.Marks p
  frontier : s.frontier.Echoes R u.frontier
  position : s.position = u.position
  level : R s.level u.level
  walk : s.walk = u.walk
  nextName : s.nextName = u.nextName
  peak : s.peak = u.peak
  phase : s.phase = u.phase

namespace Alike

variable {s : State α} {u : State β} {p q : Position} {a : α} {b : β} {m : Mask} {m' : Mask}
  {frontier : Frontier α} {frontier' : Frontier β}

theorem pass (h : Alike R s u) : Alike R s.pass u.pass :=
  { h with walk := by rw [State.pass, State.pass, h.walk] }

theorem see (h : Alike R s u) (marked : s.visited.Adds m q) (marked' : u.visited.Adds m' q)
    (pushed : frontier.Echoes R frontier') :
    Alike R (s.see m frontier) (u.see m' frontier') where
  visited := fun p => by
    change m.Marks p ↔ m'.Marks p
    rw [marked.marks, marked'.marks, h.visited]
  frontier := pushed
  position := h.position
  level := h.level
  walk := h.pass.walk
  nextName := h.nextName
  peak := by
    change max s.peak frontier.heap.size = max u.peak frontier'.heap.size
    rw [h.peak, pushed.heap]
  phase := h.phase

theorem sink (h : Alike R s u) (marked : s.visited.Adds m q) (marked' : u.visited.Adds m' q)
    (pushed : frontier.Echoes R frontier') (hab : R a b) :
    Alike R (s.sink m frontier q a) (u.sink m' frontier' q b) :=
  { h.see marked marked' pushed with
    position := rfl
    level := hab
    walk := congrArg (Walk.seek · 0) h.walk
    nextName := congrArg (· + 1) h.nextName }

theorem arrive (h : Alike R s u) : Alike R s.arrive u.arrive :=
  { h with
    phase := by
      have hempty : s.frontier.isEmpty = u.frontier.isEmpty := by
        rw [Frontier.isEmpty, Frontier.isEmpty, h.frontier.heap]
      rw [State.arrive, State.arrive, hempty] }

theorem enter (h : Alike R s u) {slot : Nat} {r : Record α} {r' : Record β}
    (hr : Frontier.RecordEchoes R r r') (left : frontier.Echoes R frontier') :
    Alike R (s.enter slot r frontier) (u.enter slot r' frontier') where
  visited := h.visited
  frontier := left.release slot
  position := hr.position
  level := hr.level
  walk := by
    change s.walk.seek r.cursor = u.walk.seek r'.cursor
    rw [h.walk, hr.cursor]
  nextName := h.nextName
  peak := h.peak
  phase := rfl

/-- Settling the stacks leaves the floods where they are, if it strands none. -/
theorem settleAt (h : Alike R s u) (running : (s.settleAt rank a).ended = false)
    (running' : (u.settleAt rank' b).ended = false) :
    Alike R (s.settleAt rank a) (u.settleAt rank' b) :=
  { h with
    phase := by
      rw [State.ended, phase_settleAt] at running running'
      rw [phase_settleAt, phase_settleAt]
      split at running
      · cases running
      next hs =>
        split at running'
        · cases running'
        next hu => rw [if_neg hs, if_neg hu, h.phase] }

/-- What the one flood finds, the other one finds too. -/
theorem found (h : Alike R s u) (terrain : t.Echoes R t') (found : Found t' u q b) :
    ∃ a, Found t s q a ∧ R a b := by
  have hrel := terrain.levels q
  rw [found.level] at hrel
  cases hlevel : t.level? q with
  | none => rw [hlevel] at hrel; cases hrel
  | some a =>
    refine ⟨a, ?_, terrain.rel hlevel found.level⟩
    constructor
    case neighbor => rw [terrain.sides, h.walk, h.position]; exact found.neighbor
    case inside => rw [terrain.sides]; exact found.inside
    case adjacent => rw [h.position]; exact found.adjacent
    case level => exact hlevel
    case unseen => rw [h.visited]; exact found.unseen

/-- What the one flood has examined, the other one has examined too. -/
theorem examined_iff (h : Alike R s u) (terrain : t.Echoes R t') :
    Examined t s.visited s.position (s.walk.cursor + 1) ↔
      Examined t' u.visited u.position (u.walk.cursor + 1) := by
  simp only [Examined, terrain.sides, h.walk, h.position, terrain.readable_iff, h.visited]

end Alike

/-- Two floods at the same point, with towers of the same positions. -/
structure Parallel (R : α → β → Prop) (rank : Ranking α) (rank' : Ranking β) (t : Terrain α)
    (t' : Terrain β) (s : State α) (u : State β) : Prop where
  alike : Alike R s u
  towers : ∃ w x, Shows rank t s w ∧ Shows rank' t' u x ∧ w.Echoes R x

namespace Parallel

variable {s v : State α} {u w : State β} {lastLevel : α} {lastLevel' : β}

section Moves

variable (order : TotalPreorder rank) (order' : TotalPreorder rank') (agree : Agree R rank rank')
  (terrain : t.Echoes R t')

include order order' agree terrain

/-- Both floods look at the same neighbour, and do the same about it. -/
theorem look (hp : Parallel R rank rank' t t' s u) (phase : s.phase = .survey)
    (looks : Looks rank t s v) (looks' : Looks rank' t' u w) : Parallel R rank rank' t t' v w := by
  obtain ⟨alike, x, y, hx, hy, hxy⟩ := hp
  have phase' : u.phase = .survey := alike.phase ▸ phase
  -- what one flood finds, the other finds at a related level, so only the like cases can meet
  cases looks with
  | skip examined =>
    cases looks' with
    | skip examined' =>
      exact ⟨alike.pass, x, y, hx.skip phase examined, hy.skip phase' examined', hxy⟩
    | wait found' => exact absurd ((alike.examined_iff terrain).1 examined) found'.not_examined
    | descend found' => exact absurd ((alike.examined_iff terrain).1 examined) found'.not_examined
  | wait found marked pushed high =>
    cases looks' with
    | skip examined' => exact absurd ((alike.examined_iff terrain).2 examined') found.not_examined
    | wait found' marked' pushed' high' =>
      obtain ⟨a, hfound, hab⟩ := alike.found terrain found'
      obtain ⟨rfl, rfl⟩ := found.unique hfound
      have pushes := alike.frontier.push agree ⟨rfl, hab, rfl⟩ pushed pushed'
      exact ⟨alike.see marked marked' pushes, x, y, hx.wait phase order found marked pushed high,
        hy.wait phase' order' found' marked' pushed' high', hxy⟩
    | descend found' _ _ low =>
      obtain ⟨a, hfound, hab⟩ := alike.found terrain found'
      obtain ⟨rfl, rfl⟩ := found.unique hfound
      rw [agree _ _ _ _ hab alike.level] at high
      exact absurd low high
  | descend found marked pushed low =>
    cases looks' with
    | skip examined' => exact absurd ((alike.examined_iff terrain).2 examined') found.not_examined
    | wait found' _ _ high =>
      obtain ⟨a, hfound, hab⟩ := alike.found terrain found'
      obtain ⟨rfl, rfl⟩ := found.unique hfound
      rw [agree _ _ _ _ hab alike.level] at low
      exact absurd low high
    | descend found' marked' pushed' low' =>
      obtain ⟨a, hfound, hab⟩ := alike.found terrain found'
      obtain ⟨rfl, rfl⟩ := found.unique hfound
      have pushes := alike.frontier.push agree
        ⟨alike.position, alike.level, by rw [alike.walk]⟩ pushed pushed'
      exact ⟨alike.sink marked marked' pushes hab, x.sink _, y.sink _,
        hx.descend phase order found marked pushed low,
        hy.descend phase' order' found' marked' pushed' low', hxy.sink hab⟩

/-- Both floods make the same move, or both of them close. -/
theorem move (flood : t.Floodable) (flood' : t'.Floodable) (fits : t.Fits) (fits' : t'.Fits)
    (hp : Parallel R rank rank' t t' s u) (moves : Moves rank t s v) (moves' : Moves rank' t' u w) :
    Parallel R rank rank' t t' v w ∨
      s.phase = .close ∧ u.phase = .close ∧ v = s.close rank ∧ w = u.close rank' := by
  obtain ⟨alike, x, y, hx, hy, hxy⟩ := hp
  cases moves with
  | look phase left looks =>
    have looks' := moves'.looks (alike.phase ▸ phase) (alike.walk ▸ left)
    exact .inl (look order order' agree terrain ⟨alike, x, y, hx, hy, hxy⟩ phase looks looks')
  | arrive phase done =>
    have phase' : u.phase = .survey := alike.phase ▸ phase
    have done' : u.walk.hasNext = false := alike.walk ▸ done
    obtain rfl := moves'.eq_arrive phase' done'
    refine .inl ⟨alike.arrive, x.add s.position, y.add u.position,
      hx.arrive order flood fits phase done, hy.arrive order' flood' fits' phase' done', ?_⟩
    rw [alike.position]
    exact hxy.add _
  | stay phase popped same =>
    have phase' : u.phase = .rise := alike.phase ▸ phase
    obtain ⟨slot, r', left', popped', hcases⟩ := moves'.exists_popped phase'
    obtain ⟨rfl, hr, hleft⟩ := alike.frontier.pop agree popped popped'
    have hsame := same
    rw [agree _ _ _ _ hr.level alike.level] at hsame
    obtain ⟨same', rfl⟩ | ⟨other, -⟩ := hcases
    · exact .inl ⟨alike.enter hr hleft, x, y, hx.stay order phase popped same,
        hy.stay order' phase' popped' same', hxy⟩
    · exact absurd hsame other
  | climb phase popped other =>
    have phase' : u.phase = .rise := alike.phase ▸ phase
    obtain ⟨slot, r', left', popped', hcases⟩ := moves'.exists_popped phase'
    obtain ⟨rfl, hr, hleft⟩ := alike.frontier.pop agree popped popped'
    have hother := other
    rw [agree _ _ _ _ hr.level alike.level] at hother
    obtain ⟨same, -⟩ | ⟨other', rfl⟩ := hcases
    · exact absurd same hother
    · have hv := hx.climb order phase popped other
      have hw := hy.climb order' phase' popped' other'
      exact .inl ⟨(alike.enter hr hleft).settleAt hv.running hw.running, _, _, hv, hw,
        hxy.climb agree hr.level⟩
  | close phase =>
    have phase' : u.phase = .close := alike.phase ▸ phase
    exact .inr ⟨phase, phase', rfl, moves'.eq_close phase'⟩

/-- Two floods come to their closes together. -/
theorem exists_close (flood : t.Floodable) (flood' : t'.Floodable) (fits : t.Fits) (fits' : t'.Fits)
    (hp : Parallel R rank rank' t t' s u) (moves : Relation.ReflTransGen (Moves rank t) s v)
    (moves' : Relation.ReflTransGen (Moves rank' t') u w) (ended : v.ended = true)
    (ended' : w.ended = true) :
    ∃ s' u', Parallel R rank rank' t t' s' u' ∧ s'.phase = .close ∧ u'.phase = .close ∧
      v = s'.close rank ∧ w = u'.close rank' ∧ s'.floor = s.floor ∧ u'.floor = u.floor := by
  induction moves using Relation.ReflTransGen.head_induction_on generalizing u with
  | refl =>
    obtain ⟨-, x, -, hx, -⟩ := hp
    have running := hx.running
    simp [ended] at running
  | @head s s₁ hmove hrest ih =>
    rcases moves'.cases_head with rfl | ⟨u₁, hmove', hrest'⟩
    · obtain ⟨-, -, y, -, hy, -⟩ := hp
      have running := hy.running
      simp [ended'] at running
    · rcases hp.move order order' agree terrain flood flood' fits fits' hmove hmove' with
        hnext | ⟨phase, phase', rfl, rfl⟩
      · obtain ⟨s', u', hp', phase, phase', hv, hw, hfloor, hfloor'⟩ := ih hnext hrest'
        exact ⟨s', u', hp', phase, phase', hv, hw, hfloor.trans hmove.floor_eq,
          hfloor'.trans hmove'.floor_eq⟩
      · -- a flood that has closed is over
        refine ⟨s, u, hp, phase, phase', ?_, ?_, rfl, rfl⟩
        · rcases hrest.cases_head with heq | ⟨_, hnext, -⟩
          · exact heq.symm
          · exact absurd hnext.running (by simp [ended_close])
        · rcases hrest'.cases_head with heq | ⟨_, hnext, -⟩
          · exact heq.symm
          · exact absurd hnext.running (by simp [ended_close])

end Moves

/-- Two floods start at the same point. -/
theorem start (order : TotalPreorder rank) (order' : TotalPreorder rank') (terrain : t.Echoes R t')
    (hstart : State.start t lastLevel = .ok s) (hstart' : State.start t' lastLevel' = .ok u)
    (below : ¬ t.Exceeds rank lastLevel) (below' : ¬ t'.Exceeds rank' lastLevel') :
    Parallel R rank rank' t t' s u := by
  have hs := starts_of_start hstart
  have hu := starts_of_start hstart'
  obtain ⟨-, -, hwalk, hpeak⟩ := floodable_of_start hstart
  obtain ⟨-, -, hwalk', hpeak'⟩ := floodable_of_start hstart'
  have hposition : s.position = u.position := by
    rw [hs.position_eq, hu.position_eq, terrain.sides]
  have hlevel : R s.level u.level := by
    have haccounted := hu.accounted.level
    rw [← hposition] at haccounted
    exact terrain.rel hs.accounted.level haccounted
  refine ⟨?_, _, _, hs.shows order below, hu.shows order' below', .ofLevel hlevel, .nil, .nil⟩
  constructor
  case visited =>
    intro p
    rw [hs.marks_iff, hu.marks_iff, hposition]
  case frontier =>
    rw [hs.frontier, hu.frontier]
    exact Frontier.echoes_empty
  case position => exact hposition
  case level => exact hlevel
  case walk => rw [hwalk, hwalk', terrain.sides]
  case nextName => rw [hs.nextName, hu.nextName]
  case peak => rw [hpeak, hpeak']
  case phase => rw [hs.phase, hu.phase]

end Parallel

/-- Levels that are level with related ones. -/
def Through (R : α → β → Prop) (rank : Ranking α) (rank' : Ranking β) (a : α) (d : β) : Prop :=
  ∃ b c, rank a b = .eq ∧ R b c ∧ rank' c d = .eq

/-- A flood that came to its end over a floor, and what its log books. -/
structure Ends (rank : Ranking α) (t : Terrain α) (lastLevel : α) (s : State α) (l : Ledger Nat α) :
    Prop where
  run : ∀ validate, Flood.run t ⟨rank, validate⟩ lastLevel = .ok ⟨s.log, s.result validate⟩
  phase : s.phase = .finished
  accounted : Accounted t s
  finished : Finished rank t s l
  merged : s.tally.merged + l.holdings.length = s.nextName
  /-- The floor is left over unless the region that was emitted last is level with it. -/
  left : ∀ g, l.complete.getLast? = some g →
    l.holdings.length = if rank g.level lastLevel = .eq then 1 else 2

/-- Two floods have emitted the same positions at related levels, and used as many names and places. -/
structure Twins (R : α → β → Prop) (rank : Ranking α) (rank' : Ranking β) (s : State α) (u : State β)
    (l : Ledger Nat α) (m : Ledger Nat β) : Prop where
  complete : Forall₂ (Echoes (Through R rank rank')) l.complete m.complete
  peak : s.peak = u.peak
  nextName : s.nextName = u.nextName

theorem forall₂_through {hs xs : List (Holding α)} {gs ys : List (Holding β)}
    (order' : TotalPreorder rank') (hxy : Forall₂ (Echoes R) xs ys)
    (hx : Forall₂ (Tied rank) hs xs) (hy : Forall₂ (Tied rank') gs ys) :
    Forall₂ (Echoes (Through R rank rank')) hs gs := by
  induction hxy generalizing hs gs with
  | nil =>
    cases hx
    cases hy
    exact .nil
  | cons hxy _ ih =>
    obtain _ | ⟨hx, hxs⟩ := hx
    obtain _ | ⟨hy, hys⟩ := hy
    refine .cons ⟨⟨_, _, hx.level, hxy.level, order'.eq_symm hy.level⟩, ?_, ?_⟩ (ih hxs hys)
    · exact (hx.held.trans hxy.held).trans hy.held.symm
    · exact (hx.fresh.trans hxy.fresh).trans hy.fresh.symm

theorem peak_close {s : State α} : (s.close rank).peak = s.peak := by
  unfold State.close
  split <;> rfl

theorem nextName_close {s : State α} : (s.close rank).nextName = s.nextName := by
  unfold State.close
  split <;> rfl

/-- Floods of corresponding terrains, over floors that are not exceeded, come to their ends with the
same regions. -/
theorem exists_twins (order : TotalPreorder rank) (order' : TotalPreorder rank')
    (agree : Agree R rank rank') (terrain : t.Echoes R t') (flood : t.Floodable)
    (flood' : t'.Floodable) (fits : t.Fits) (fits' : t'.Fits) {lastLevel : α} {lastLevel' : β}
    (below : ¬ t.Exceeds rank lastLevel) (below' : ¬ t'.Exceeds rank' lastLevel') :
    ∃ v w l m, Ends rank t lastLevel v l ∧ Ends rank' t' lastLevel' w m ∧
      Twins R rank rank' v w l m := by
  obtain ⟨s, v, hstart, hs, hrun, moves, ended, -⟩ := exists_run flood fits rank lastLevel
  obtain ⟨u, w, hstart', hu, hrun', moves', ended', -⟩ := exists_run flood' fits' rank' lastLevel'
  have hstarts := Parallel.start order order' terrain hstart hstart' below below'
  obtain ⟨s', u', ⟨alike, x, y, hx, hy, hxy⟩, phase, phase', rfl, rfl, hfloor, hfloor'⟩ :=
    hstarts.exists_close order order' agree terrain flood flood' fits fits' moves moves' ended ended'
  obtain ⟨l, hphase, accounted, finished, complete, left⟩ := hx.close order phase
  obtain ⟨m, hphase', accounted', finished', complete', left'⟩ := hy.close order' phase'
  rw [hfloor, hs.floor] at left
  rw [hfloor', hu.floor] at left'
  refine ⟨_, _, l, m, ⟨fun _ => run_eq hstart hrun, hphase, accounted, finished,
    hs.merged_add moves finished.run, left⟩, ⟨fun _ => run_eq hstart' hrun', hphase', accounted',
    finished', hu.merged_add moves' finished'.run, left'⟩,
    forall₂_through order' hxy.close complete complete', ?_, ?_⟩
  · rw [peak_close, peak_close, alike.peak]
  · rw [nextName_close, nextName_close, alike.nextName]

end Flood

end LevelTree
