import LevelTree.Proofs.Flood.Layers

/-!
# Towers

The tower of a flood is its stack without a floor that has not taken in anything. How the tower grows
and shrinks does not depend on the level of the floor, up to levels that are level with each other: a
region that ends at that level is merged into the floor, which takes its place, and one that ends
beneath it is raised (`Shows.climb`). So the floor shows in the end only by being left over or not
(`Shows.close`).
-/

namespace LevelTree

/-- The holdings have the same positions, at levels that are related. -/
structure Echoes {α β : Type} (R : α → β → Prop) (h : Holding α) (g : Holding β) : Prop where
  level : R h.level g.level
  held : h.held = g.held
  fresh : h.fresh = g.fresh

namespace Echoes

variable {α β : Type} {R : α → β → Prop} {h k : Holding α} {g l : Holding β} {a : α} {b : β}

theorem ofLevel (hab : R a b) : Echoes R (.ofLevel a) (.ofLevel b) := ⟨hab, rfl, rfl⟩

theorem add (hs : Echoes R h g) (p : Position) : Echoes R (h.add p) (g.add p) :=
  ⟨hs.level, by simp [Holding.add, hs.held], by simp [Holding.add, hs.fresh]⟩

theorem settled (hs : Echoes R h g) : Echoes R h.settled g.settled := ⟨hs.level, hs.held, rfl⟩

theorem raise (hs : Echoes R h g) (hab : R a b) : Echoes R (h.raise a) (g.raise b) :=
  ⟨hab, hs.held, hs.fresh⟩

theorem merge (hs : Echoes R h g) (hs' : Echoes R k l) : Echoes R (h.merge k) (g.merge l) :=
  ⟨hs.level, by simp [Holding.merge, hs.held, hs'.held],
    by simp [Holding.merge, hs.fresh, hs'.fresh]⟩

end Echoes

namespace Flood

open List (Forall₂)

variable {α : Type} {rank : Ranking α} {t : Terrain α} {s u : State α} {n m : Nat}
  {h g : Holding α} {rest : List (Nat × Holding α)} {done : List (Holding α)} {p q : Position}
  {a level : α}

/-- The holdings have the same positions, at levels that are level with each other. -/
abbrev Tied (rank : Ranking α) : Holding α → Holding α → Prop := Echoes fun a b => rank a b = .eq

/-- The regions on a stack, the topmost one apart, and what was emitted. -/
structure Tower (α : Type) where
  top : Holding α
  under : List (Holding α)
  done : List (Holding α)

namespace Tower

/-- A new region on top. -/
def sink (w : Tower α) (level : α) : Tower α := ⟨.ofLevel level, w.top :: w.under, w.done⟩

/-- One more position in the topmost region. -/
def add (w : Tower α) (p : Position) : Tower α := { w with top := w.top.add p }

/-- The topmost region is emitted, and then raised to the level if no region at the level is beneath,
and merged into that otherwise. -/
def climb (rank : Ranking α) (w : Tower α) (level : α) : Tower α :=
  match w.under with
  | [] => ⟨w.top.settled.raise level, [], w.done ++ [w.top]⟩
  | g :: under =>
    if rank level g.level = .lt then
      ⟨w.top.settled.raise level, g :: under, w.done ++ [w.top]⟩
    else ⟨g.merge w.top.settled, under, w.done ++ [w.top]⟩

/-- What was emitted, with the topmost region at last. -/
def close (w : Tower α) : List (Holding α) := w.done ++ [w.top]

variable {w : Tower α} {under : List (Holding α)}

theorem climb_nil (h : w.under = []) :
    w.climb rank level = ⟨w.top.settled.raise level, [], w.done ++ [w.top]⟩ := by
  rw [climb, h]

theorem climb_lt (h : w.under = g :: under) (hlt : rank level g.level = .lt) :
    w.climb rank level = ⟨w.top.settled.raise level, g :: under, w.done ++ [w.top]⟩ := by
  simp only [climb, h, hlt, if_true]

theorem climb_eq (h : w.under = g :: under) (heq : rank level g.level = .eq) :
    w.climb rank level = ⟨g.merge w.top.settled, under, w.done ++ [w.top]⟩ := by
  simp [climb, h, heq]

end Tower

instance : DecidablePred (Idle : Nat × Holding α → Prop) :=
  fun entry => inferInstanceAs (Decidable (entry.1 = 0 ∧ entry.2.held = []))

/-- The entries of a stack that are not an idle floor. -/
def busy (rest : List (Nat × Holding α)) : List (Holding α) :=
  (rest.filter fun entry => ¬ Idle entry).map (·.2)

theorem busy_of_idle (idle : Idle (m, g)) : busy [(m, g)] = [] := by simp [busy, idle]

theorem busy_cons (hbusy : ¬ Idle (m, g)) : busy ((m, g) :: rest) = g :: busy rest := by
  simp [busy, hbusy]

/-- A flood has a tower on its stack, up to levels that are level with each other, and its floor is
not exceeded. -/
inductive Shows (rank : Ranking α) (t : Terrain α) (s : State α) (w : Tower α) : Prop
  | intro (n : Nat) (h : Holding α) (rest : List (Nat × Holding α)) (done : List (Holding α))
      (layered : Layered rank t s n h rest done) (below : ¬ t.Exceeds rank s.floor)
      (active : ¬ Idle (n, h)) (top : Tied rank h w.top) (under : Forall₂ (Tied rank) (busy rest) w.under)
      (complete : Forall₂ (Tied rank) done w.done)

/-- A close ends the flood. -/
theorem ended_close : (s.close rank).ended = true := by
  unfold State.close
  split
  · rfl
  · rw [State.ended, phase_settleAt]
    split <;> rfl

namespace Layered

/-- There is nothing beneath the idle floor. -/
theorem floor_of_idle (hs : Layered rank t s n h ((m, g) :: rest) done) (idle : Idle (m, g)) :
    rest = [] ∧ g.level = s.floor := by
  obtain ⟨-, hnil, -⟩ | ⟨m', g', more, bs, heq, -, hlevel, -, hstack⟩ := hs.booked.floor_or_basin
  · simp at hnil
  simp only [List.cons.injEq, Prod.mk.injEq] at heq
  obtain ⟨⟨rfl, rfl⟩, rfl⟩ := heq
  obtain ⟨hrest, rfl⟩ := eq_nil_of_zero (List.nodup_cons.1 hs.booked.nodup).2 idle.1 hstack
  exact ⟨hrest, hlevel⟩

/-- Where something came since the last emission, something is held. -/
theorem held_ne_nil (hs : Layered rank t s n h rest done) (phase : s.phase ≠ .survey) :
    h.held ≠ [] := by
  obtain ⟨p, hp⟩ := List.exists_mem_of_ne_nil _ (hs.recent phase)
  have hheld : p ∈ h.held := (((hs.terraced.sealed h List.mem_cons_self).fresh p).1 hp).1
  exact List.ne_nil_of_mem hheld

/-- What takes in the topmost region is not idle. -/
theorem not_idle_merge (hs : Layered rank t s n h rest done) (phase : s.phase ≠ .survey) :
    ¬ Idle (m, g.merge h.settled) :=
  fun idle => hs.held_ne_nil phase (List.append_eq_nil_iff.1 idle.2).2

section Climb

variable (order : TotalPreorder rank) (below : ¬ t.Exceeds rank s.floor) (phase : s.phase = .rise)
  {slot : Nat} {r : Record α} {left : Frontier α}
  (popped : s.frontier.pop rank = some (slot, r, left))

include order below phase popped

/-- What waits does not lie above a floor that is not exceeded. -/
theorem popped_le_floor (hs : Layered rank t s n h rest done) : rank r.level s.floor ≠ .gt := by
  obtain ⟨hposition, hat, -⟩ := hs.accounted.lowest order hs.ranked phase popped
  have hreach : t.Reachable r.position := hs.accounted.tallied.reachable _
    ((hs.accounted.tallied.marks _).2 (.inr hposition))
  exact fun hgt => below ⟨r.position, r.level, hreach, hat, hgt⟩

/-- A region beneath the topmost one does not lie beneath what waits. -/
theorem popped_le (hs : Layered rank t s n h ((m, g) :: rest) done) : rank r.level g.level ≠ .gt := by
  obtain ⟨-, -, hlow⟩ := hs.accounted.lowest order hs.ranked phase popped
  rcases hs.guard_or_floor with ⟨q, a, hq, ha, heq⟩ | ⟨-, -, -, hfloor, -⟩
  · exact order.le_of_le_of_eq (hlow q a hq ha) heq
  · rw [hfloor]
    exact hs.popped_le_floor order below phase popped

/-- A rise to another level has a region beneath the topmost one. -/
theorem exists_under (hs : Layered rank t s n h rest done) (other : rank r.level s.level ≠ .eq) :
    ∃ m g more, rest = (m, g) :: more := by
  cases rest with
  | cons e more => exact ⟨e.1, e.2, more, rfl⟩
  | nil =>
    have up := hs.popped_above order phase popped other
    obtain ⟨-, -, -, hfloor⟩ | ⟨m, g, more, bs, heq, -⟩ := hs.booked.floor_or_basin
    · rw [hfloor] at up
      exact absurd (order.gt_iff_lt.2 up) (hs.popped_le_floor order below phase popped)
    · cases heq

end Climb

/-- At its end, a flood books the emission of the topmost region. -/
theorem exists_closed (hs : Layered rank t s n h rest done) (order : TotalPreorder rank)
    (phase : s.phase = .close) (below : ¬ t.Exceeds rank s.floor) :
    ∃ l, Ledger.empty.run (s.close rank).log.toList = some l ∧ l.complete = done ++ [h] ∧
      l.holdings.length = if rank h.level s.floor = .eq then 1 else 2 := by
  cases rest with
  | nil =>
    obtain ⟨hbasins, -, rfl, hfloor⟩ | ⟨m, g, more, bs, heq, -⟩ := hs.booked.floor_or_basin
    · refine ⟨⟨[(0, h.settled)], done ++ [h]⟩, ?_, rfl, by simp [hfloor, order.refl]⟩
      have hlog : (s.close rank).log = s.log.push (.emit 0) := by simp [State.close, hbasins]
      rw [hlog, Array.toList_push, Ledger.run_concat hs.booked.run]
      exact Ledger.apply_emit_head hs.booked.not_mem_tail
    · cases heq
  | cons e more =>
    obtain ⟨m, g⟩ := e
    obtain ⟨q, a, hq, -⟩ | ⟨rfl, -, rfl, hfloor, hbasins⟩ := hs.guard_or_floor
    · simp [hs.awaited_of_close phase] at hq
    have hclose : s.close rank = State.settleAt rank { s with phase := .finished } s.level := by
      simp [State.close, hbasins]
    have booked : Booked { s with phase := .finished } ⟨[(n, h), (0, g)], done⟩ :=
      hs.booked.congr rfl rfl rfl rfl
    have hsame : rank h.level s.floor = rank s.level g.level := by
      rw [hfloor]
      exact order.congr_left hs.level
    rw [hclose, hsame]
    cases hrank : rank s.level g.level with
    | lt => exact ⟨_, (booked.settle_lt hrank).2.run, rfl, rfl⟩
    | eq => exact ⟨_, (booked.settle_eq hrank).2.run, rfl, rfl⟩
    | gt =>
      obtain ⟨p, a, hreach, ha, heq⟩ := hs.exists_reachable order (by simp [phase])
      have hgt : rank a s.floor = .gt := by
        rw [order.congr_left heq, ← hfloor]
        exact hrank
      exact absurd ⟨p, a, hreach, ha, hgt⟩ below

end Layered

namespace Shows

variable {w : Tower α}

theorem running (hs : Shows rank t s w) : s.ended = false := by
  cases hs with
  | intro _ _ _ _ layered => exact layered.running

/-! ## Surveys -/

section Look

variable (phase : s.phase = .survey) {l : α} {visited : Mask} {frontier : Frontier α}

include phase

theorem skip (hs : Shows rank t s w)
    (examined : Examined t s.visited s.position (s.walk.cursor + 1)) : Shows rank t s.pass w := by
  obtain ⟨n, h, rest, done, layered, below, active, top, under, complete⟩ := hs
  exact ⟨n, h, rest, done, layered.skip phase examined, below, active, top, under, complete⟩

variable (order : TotalPreorder rank) (found : Found t s q l) (marked : s.visited.Adds visited q)

include order found marked

theorem wait (hs : Shows rank t s w) (pushed : s.frontier.push rank ⟨q, l, 0⟩ = .ok frontier)
    (high : rank l s.level ≠ .lt) : Shows rank t (s.see visited frontier) w := by
  obtain ⟨n, h, rest, done, layered, below, active, top, under, complete⟩ := hs
  exact ⟨n, h, rest, done, layered.wait order phase found marked pushed high, below, active, top,
    under, complete⟩

theorem descend (hs : Shows rank t s w)
    (pushed : s.frontier.push rank ⟨s.position, s.level, s.walk.cursor + 1⟩ = .ok frontier)
    (low : rank l s.level = .lt) : Shows rank t (s.sink visited frontier q l) (w.sink l) := by
  obtain ⟨n, h, rest, done, layered, below, active, top, under, complete⟩ := hs
  have hlt : n < s.nextName := layered.booked.lt_nextName n List.mem_cons_self
  have fresh : ¬ Idle (s.nextName, Holding.ofLevel l) := fun idle => by
    have hzero : s.nextName = 0 := idle.1
    omega
  refine ⟨_, _, _, done, layered.descend order phase found marked pushed low, below, fresh,
    .ofLevel (order.refl l), ?_, complete⟩
  rw [busy_cons active]
  exact .cons top under

end Look

theorem arrive (hs : Shows rank t s w) (order : TotalPreorder rank) (flood : t.Floodable)
    (fits : t.Fits) (phase : s.phase = .survey) (ended : s.walk.hasNext = false) :
    Shows rank t s.arrive (w.add s.position) := by
  obtain ⟨n, h, rest, done, layered, below, active, top, under, complete⟩ := hs
  have fed : ¬ Idle (n, h.add s.position) := fun idle => by simpa [Holding.add] using idle.2
  exact ⟨n, _, rest, done, layered.arrive order flood fits phase ended, below, fed, top.add _, under,
    complete⟩

/-! ## Rises -/

theorem stay (hs : Shows rank t s w) (order : TotalPreorder rank) (phase : s.phase = .rise)
    {slot : Nat} {r : Record α} {left : Frontier α}
    (popped : s.frontier.pop rank = some (slot, r, left)) (same : rank r.level s.level = .eq) :
    Shows rank t (s.enter slot r left) w := by
  obtain ⟨n, h, rest, done, layered, below, active, top, under, complete⟩ := hs
  exact ⟨n, h, rest, done, layered.stay order phase popped same, below, active, top, under, complete⟩

section Climb

variable (order : TotalPreorder rank) (below : ¬ t.Exceeds rank s.floor) (phase : s.phase = .rise)
  {slot : Nat} {r : Record α} {left : Frontier α}
  (popped : s.frontier.pop rank = some (slot, r, left)) (other : rank r.level s.level ≠ .eq)

include order below phase popped other

/-- Whether the topmost region is merged into the idle floor or raised, the tower has one region left,
with the same positions. -/
theorem climb_idle (layered : Layered rank t s n h [(m, g)] done) (idle : Idle (m, g))
    (active : ¬ Idle (n, h)) (top : Tied rank h w.top) (under : w.under = [])
    (complete : Forall₂ (Tied rank) done w.done) :
    Shows rank t ((s.enter slot r left).settleAt rank r.level) (w.climb rank r.level) := by
  have emitted : Forall₂ (Tied rank) (done ++ [h]) (w.done ++ [w.top]) :=
    List.rel_append complete (.cons top .nil)
  rw [Tower.climb_nil under]
  cases hrank : rank r.level g.level with
  | lt =>
    refine ⟨_, _, _, _, layered.climb_lt order phase popped other hrank, below, active,
      top.settled.raise (order.refl _), ?_, emitted⟩
    rw [busy_of_idle idle]
    exact .nil
  | eq =>
    have hnone : g.held = [] := idle.2
    have hnil : g.fresh = [] := layered.fresh_eq_nil idle.2
    refine ⟨_, _, _, _, layered.climb_eq order phase popped other hrank, below,
      layered.not_idle_merge (by simp [phase]),
      ⟨order.eq_symm hrank, ?_, ?_⟩, .nil, emitted⟩
    · simp [Holding.merge, Holding.settled, Holding.raise, hnone, top.held]
    · simp [Holding.merge, Holding.settled, Holding.raise, hnil]
  | gt => exact absurd hrank (layered.popped_le order below phase popped)

/-- The tower has the region beneath the topmost one, which is raised or merged into that. -/
theorem climb_busy (layered : Layered rank t s n h ((m, g) :: rest) done) (hbusy : ¬ Idle (m, g))
    (active : ¬ Idle (n, h)) (top : Tied rank h w.top)
    (under : Forall₂ (Tied rank) (busy ((m, g) :: rest)) w.under)
    (complete : Forall₂ (Tied rank) done w.done) :
    Shows rank t ((s.enter slot r left).settleAt rank r.level) (w.climb rank r.level) := by
  have emitted : Forall₂ (Tied rank) (done ++ [h]) (w.done ++ [w.top]) :=
    List.rel_append complete (.cons top .nil)
  rw [busy_cons hbusy] at under
  obtain ⟨k, others, htied, hothers, hunder⟩ := List.forall₂_cons_left_iff.1 under
  have hsame : rank r.level g.level = rank r.level k.level := order.congr_right htied.level
  cases hrank : rank r.level g.level with
  | lt =>
    rw [Tower.climb_lt hunder (hsame ▸ hrank)]
    refine ⟨_, _, _, _, layered.climb_lt order phase popped other hrank, below, active,
      top.settled.raise (order.refl _), ?_, emitted⟩
    rw [busy_cons hbusy]
    exact .cons htied hothers
  | eq =>
    rw [Tower.climb_eq hunder (hsame ▸ hrank)]
    exact ⟨_, _, _, _, layered.climb_eq order phase popped other hrank, below,
      layered.not_idle_merge (by simp [phase]), htied.merge top.settled, hothers, emitted⟩
  | gt => exact absurd hrank (layered.popped_le order below phase popped)

end Climb

theorem climb (hs : Shows rank t s w) (order : TotalPreorder rank) (phase : s.phase = .rise)
    {slot : Nat} {r : Record α} {left : Frontier α}
    (popped : s.frontier.pop rank = some (slot, r, left)) (other : rank r.level s.level ≠ .eq) :
    Shows rank t ((s.enter slot r left).settleAt rank r.level) (w.climb rank r.level) := by
  obtain ⟨n, h, rest, done, layered, below, active, top, under, complete⟩ := hs
  obtain ⟨m, g, more, rfl⟩ := layered.exists_under order below phase popped other
  by_cases idle : Idle (m, g)
  · obtain ⟨rfl, -⟩ := layered.floor_of_idle idle
    rw [busy_of_idle idle] at under
    exact climb_idle order below phase popped other layered idle active top
      (List.forall₂_nil_left_iff.1 under) complete
  · exact climb_busy order below phase popped other layered idle active top under complete

/-! ## The end -/

/-- A close emits the top of the tower and finishes the flood. One region is left open if the one
emitted last is level with the floor, and otherwise the idle floor is left too. -/
theorem close (hs : Shows rank t s w) (order : TotalPreorder rank) (phase : s.phase = .close) :
    ∃ l, (s.close rank).phase = .finished ∧ Accounted t (s.close rank) ∧
      Finished rank t (s.close rank) l ∧ Forall₂ (Tied rank) l.complete w.close ∧
      ∀ g, l.complete.getLast? = some g →
        l.holdings.length = if rank g.level s.floor = .eq then 1 else 2 := by
  obtain ⟨n, h, rest, done, layered, below, active, top, under, complete⟩ := hs
  have emitted : Forall₂ (Tied rank) (done ++ [h]) w.close :=
    List.rel_append complete (.cons top .nil)
  obtain ⟨m, hrun, hcomplete, hopen⟩ := layered.exists_closed order phase below
  have hfloor : (s.close rank).floor = s.floor := Moves.floor_eq (t := t) (.close phase)
  cases layered.close order phase with
  | going _ _ _ _ going =>
    have running := going.running
    simp [ended_close] at running
  | finished l hphase accounted finished =>
    obtain rfl : m = l := Option.some.inj (hrun.symm.trans finished.run)
    refine ⟨m, hphase, accounted, finished, hcomplete ▸ emitted, fun g hg => ?_⟩
    obtain rfl : h = g := by simpa [hcomplete] using hg
    exact hopen
  | stranded l _ stranded => exact absurd (hfloor ▸ stranded.high) below

end Shows

/-- A flood starts with one region on its stack. -/
theorem Starts.shows (hs : Starts t level s) (order : TotalPreorder rank)
    (below : ¬ t.Exceeds rank level) : Shows rank t s ⟨.ofLevel s.level, [], []⟩ := by
  refine ⟨1, .ofLevel s.level, [(0, .ofLevel level)], [], hs.layered order, hs.floor ▸ below, ?_,
    .ofLevel (order.refl _), ?_, .nil⟩
  · exact fun idle => absurd idle.1 Nat.one_ne_zero
  · rw [busy_of_idle ⟨rfl, rfl⟩]
    exact .nil

end Flood

end LevelTree
