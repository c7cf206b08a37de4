import LevelTree.Proofs.Flood.Books
import LevelTree.Proofs.Flood.Run
import LevelTree.Proofs.Flood.Terraces

/-!
# Floods in an order

Where the ranking is a total preorder, the first waiting position is a lowest one, and the stack of a
flood is terraced over the positions that are awaited. Each settling then emits one region, which is
complete, and a flood is stranded only by a level above the floor (`Layered.move`).
-/

namespace LevelTree.Flood

variable {α : Type} {rank : Ranking α} {t : Terrain α} {s u : State α} {n m : Nat}
  {h g : Holding α} {rest : List (Nat × Holding α)} {done : List (Holding α)} {p q : Position}
  {a level : α}

/-- What holds of a flood on its way: `h` is what the topmost region holds, `rest` are the regions
beneath, and `done` is what was emitted. -/
structure Layered (rank : Ranking α) (t : Terrain α) (s : State α) (n : Nat) (h : Holding α)
    (rest : List (Nat × Holding α)) (done : List (Holding α)) : Prop where
  running : s.ended = false
  accounted : Accounted t s
  ranked : s.frontier.Ranked rank
  booked : Booked s ⟨(n, h) :: rest, done⟩
  terraced : Terraced t rank (· ∈ s.awaited) h rest
  level : rank h.level s.level = .eq
  recent : s.phase ≠ .survey → h.fresh ≠ []
  complete : ∀ g ∈ done, Complete t rank g

/-- What the log of a flood books: everything emitted is complete, and everything added can be
reached. -/
structure Logged (rank : Ranking α) (t : Terrain α) (s : State α) (l : Ledger Nat α) : Prop where
  run : Ledger.empty.run s.log.toList = some l
  complete : ∀ g ∈ l.complete, Complete t rank g
  reachable : ∀ p ∈ s.added, t.Reachable p
  few : s.added.length ≤ Word.plainProduct t.sides

/-- What a finished flood leaves: nothing is fresh, and the last emission took all positions, none of
them above the floor. -/
structure Finished (rank : Ranking α) (t : Terrain α) (s : State α) (l : Ledger Nat α) : Prop
    extends Logged rank t s l where
  fresh : ∀ e ∈ l.holdings, e.2.fresh = []
  whole : ∃ g, l.complete.getLast? = some g ∧ l.held = g.held ∧ rank g.level s.floor ≠ .gt

/-- What a stranded flood leaves: a position above the floor can be reached. -/
structure Stranded (rank : Ranking α) (t : Terrain α) (s : State α) (l : Ledger Nat α) : Prop
    extends Logged rank t s l where
  high : t.Exceeds rank s.floor

/-- How far a flood has come. -/
inductive Charted (rank : Ranking α) (t : Terrain α) (s : State α) : Prop
  | going (n : Nat) (h : Holding α) (rest : List (Nat × Holding α)) (done : List (Holding α))
      (layered : Layered rank t s n h rest done)
  | finished (l : Ledger Nat α) (phase : s.phase = .finished) (accounted : Accounted t s)
      (finished : Finished rank t s l)
  | stranded (l : Ledger Nat α) (phase : s.phase = .stranded) (stranded : Stranded rank t s l)

/-- A flood that goes on is layered. -/
theorem Charted.layered (hs : Charted rank t s) (running : s.ended = false) :
    ∃ n h rest done, Layered rank t s n h rest done := by
  cases hs with
  | going n h rest done layered => exact ⟨n, h, rest, done, layered⟩
  | finished l phase => simp [State.ended, phase] at running
  | stranded l phase => simp [State.ended, phase] at running

/-! ## What is held and what waits -/

/-- What was added is held by an open region. -/
theorem Booked.mem_added_iff (hb : Booked s ⟨(n, h) :: rest, done⟩) :
    p ∈ s.added ↔ ∃ g ∈ h :: rest.map (·.2), p ∈ g.held := by
  have hheld : Ledger.held ⟨(n, h) :: rest, done⟩ = (h :: rest.map (·.2)).flatMap (·.held) := by
    simp [Ledger.held, List.flatMap_map]
  rw [State.added, ← (Ledger.held_perm hb.run).mem_iff, hheld, List.mem_flatMap]

theorem Accounted.reachable_added (hs : Accounted t s) (hp : p ∈ s.added) : t.Reachable p :=
  hs.tallied.reachable p ((hs.tallied.marks p).2 (.inl hp))

/-- No more positions are added than there are cells. -/
theorem Accounted.length_added_le (hs : Accounted t s) :
    s.added.length ≤ Word.plainProduct t.sides := by
  have hcount := hs.tallied.count
  rw [Extents.volume_eq_plainProduct, hs.sides, List.length_append] at hcount
  omega

theorem Accounted.at_of_awaited (hs : Accounted t s) (hp : p ∈ s.awaited)
    (hlevel : t.level? p = some a) : t.At p a :=
  ⟨(hs.tallied.reachable p ((hs.tallied.marks p).2 (.inr hp))).readable.1, hlevel⟩

theorem Accounted.at_position (hs : Accounted t s) (phase : s.phase = .survey) :
    t.At s.position s.level :=
  hs.at_of_awaited (by simp [State.awaited, phase]) hs.level

/-- The record that is popped is awaited at its level, and nothing that is awaited lies lower. -/
theorem Accounted.lowest (order : TotalPreorder rank) (hs : Accounted t s)
    (ranked : s.frontier.Ranked rank) (phase : s.phase = .rise) {slot : Nat} {r : Record α}
    {left : Frontier α} (popped : s.frontier.pop rank = some (slot, r, left)) :
    r.position ∈ s.awaited ∧ t.At r.position r.level ∧
      ∀ q a, q ∈ s.awaited → t.At q a → rank r.level a ≠ .gt := by
  have hawaited : s.awaited = s.frontier.waiting.map (·.position) :=
    State.awaited_of_ne (by simp [phase])
  have hr : r ∈ s.frontier.waiting :=
    (Frontier.pop_spec hs.intact popped).2.1.mem_iff.2 List.mem_cons_self
  have hposition : r.position ∈ s.awaited := hawaited ▸ List.mem_map_of_mem hr
  refine ⟨hposition, hs.at_of_awaited hposition (hs.levels r hr), fun q a hq ha => ?_⟩
  rw [hawaited] at hq
  obtain ⟨w, hw, rfl⟩ := List.mem_map.1 hq
  obtain rfl : w.level = a := Option.some.inj ((hs.levels w hw).symm.trans ha.2)
  exact order.not_lt_iff.1 (Frontier.not_lt_of_pop order ranked popped w hw)

theorem Terraced.congr {out out' : Position → Prop} (ht : Terraced t rank out h rest)
    (hout : ∀ p, out' p ↔ out p) : Terraced t rank out' h rest := by
  obtain rfl : out' = out := funext fun p => propext (hout p)
  exact ht

namespace Layered

/-! ## Surveys -/

section Look

variable (order : TotalPreorder rank) (phase : s.phase = .survey) {l : α}

include phase

/-- Passing a neighbour by leaves the stack. -/
theorem skip (hs : Layered rank t s n h rest done)
    (examined : Examined t s.visited s.position (s.walk.cursor + 1)) :
    Layered rank t s.pass n h rest done where
  running := hs.running
  accounted := (hs.accounted.look phase (Looks.skip examined : Looks rank t s s.pass)).1
  ranked := hs.ranked
  booked := hs.booked.congr rfl rfl rfl rfl
  terraced := hs.terraced
  level := hs.level
  recent := fun hne => absurd phase hne
  complete := hs.complete

include order

/-- A neighbour that waits leaves the stack. -/
theorem wait (hs : Layered rank t s n h rest done) {visited : Mask} {frontier : Frontier α}
    (found : Found t s q l) (marked : s.visited.Adds visited q)
    (pushed : s.frontier.push rank ⟨q, l, 0⟩ = .ok frontier) (high : rank l s.level ≠ .lt) :
    Layered rank t (s.see visited frontier) n h rest done where
  running := hs.running
  accounted := hs.accounted.see phase found marked pushed
  ranked := Frontier.ranked_push order hs.accounted.intact hs.ranked pushed
  booked := hs.booked.congr rfl rfl rfl rfl
  terraced := by
    have seen : (s.see visited frontier).awaited.Perm (q :: s.awaited) :=
      awaited_see hs.accounted.intact pushed phase
    exact hs.terraced.wait order (by simp [State.awaited, phase]) (hs.accounted.at_position phase)
      hs.level ⟨found.inside, found.level⟩ found.adjacent
      (fun r => by rw [seen.mem_iff, List.mem_cons]) high
  level := hs.level
  recent := fun hne => absurd phase hne
  complete := hs.complete

/-- A lower neighbour is a new region on top. -/
theorem descend (hs : Layered rank t s n h rest done) {visited : Mask} {frontier : Frontier α}
    (found : Found t s q l) (marked : s.visited.Adds visited q)
    (pushed : s.frontier.push rank ⟨s.position, s.level, s.walk.cursor + 1⟩ = .ok frontier)
    (low : rank l s.level = .lt) :
    Layered rank t (s.sink visited frontier q l) s.nextName (.ofLevel l) ((n, h) :: rest) done where
  running := hs.running
  accounted := hs.accounted.sink phase found marked pushed
  ranked := Frontier.ranked_push order hs.accounted.intact hs.ranked pushed
  booked := hs.booked.create rfl rfl rfl rfl
  terraced := by
    have seen : (s.sink visited frontier q l).awaited.Perm (q :: s.awaited) :=
      awaited_sink hs.accounted.intact pushed phase
    exact hs.terraced.descend order (by simp [State.awaited, phase]) (hs.accounted.at_position phase)
      hs.level ⟨found.inside, found.level⟩ found.adjacent
      (fun r => by rw [seen.mem_iff, List.mem_cons]) low n
  level := order.refl l
  recent := fun hne => absurd phase hne
  complete := hs.complete

theorem look (hs : Layered rank t s n h rest done) (looks : Looks rank t s u) :
    ∃ n h rest done, Layered rank t u n h rest done := by
  cases looks with
  | skip examined => exact ⟨n, h, rest, done, hs.skip phase examined⟩
  | wait found marked pushed high =>
    exact ⟨n, h, rest, done, hs.wait order phase found marked pushed high⟩
  | descend found marked pushed low =>
    exact ⟨_, _, _, done, hs.descend order phase found marked pushed low⟩

end Look

theorem arrive (order : TotalPreorder rank) (hs : Layered rank t s n h rest done)
    (flood : t.Floodable) (fits : t.Fits) (phase : s.phase = .survey)
    (ended : s.walk.hasNext = false) :
    Layered rank t s.arrive n (h.add s.position) rest done := by
  have hawaited : s.awaited = s.position :: s.arrive.awaited := awaited_arrive phase
  have apart : s.position ∉ s.added := by
    have hnodup := hs.accounted.tallied.nodup
    rw [hawaited] at hnodup
    exact fun hadded => (List.nodup_append.1 hnodup).2.2 _ hadded _ List.mem_cons_self rfl
  refine {
    running := ?_
    accounted := hs.accounted.arrive flood fits phase ended
    ranked := hs.ranked
    booked := hs.booked.arrive
    terraced := ?_
    level := hs.level
    recent := fun _ => by simp [Holding.add]
    complete := hs.complete }
  · unfold State.arrive State.ended
    cases s.frontier.isEmpty <;> rfl
  · refine hs.terraced.arrive order (hs.accounted.at_position phase) hs.level
      (fun r => by rw [hawaited, List.mem_cons]) (fun g hg hheld => ?_) fun q hq hadj => ?_
    · exact apart (hs.booked.mem_added_iff.2 ⟨g, hg, hheld⟩)
    · have hmarked := hs.accounted.surrounded flood fits phase ended hq hadj
      rw [hs.accounted.tallied.marks, hs.booked.mem_added_iff] at hmarked
      exact hmarked.symm

/-! ## Rises -/

theorem stay (order : TotalPreorder rank) (hs : Layered rank t s n h rest done)
    (phase : s.phase = .rise) {slot : Nat} {r : Record α} {left : Frontier α}
    (popped : s.frontier.pop rank = some (slot, r, left)) (same : rank r.level s.level = .eq) :
    Layered rank t (s.enter slot r left) n h rest done where
  running := rfl
  accounted := hs.accounted.enter phase popped
  ranked := Frontier.ranked_release (Frontier.ranked_pop order hs.ranked popped)
  booked := hs.booked.congr rfl rfl rfl rfl
  terraced := hs.terraced.congr fun _ => (awaited_enter hs.accounted.intact phase popped).mem_iff
  level := order.eq_trans hs.level (order.eq_symm same)
  recent := fun hne => absurd rfl hne
  complete := hs.complete

theorem nodup_held (hs : Layered rank t s n h rest done) : h.held.Nodup := by
  have hadded : s.added.Nodup := (List.nodup_append.1 hs.accounted.tallied.nodup).1
  have hheld := (Ledger.held_perm hs.booked.run).nodup_iff.2 hadded
  simp only [Ledger.held, List.flatMap_cons] at hheld
  exact (List.nodup_append.1 hheld).1

/-- Where all that is awaited lies above the topmost region, that region is complete. -/
theorem complete_concat (order : TotalPreorder rank) (hs : Layered rank t s n h rest done)
    (phase : s.phase ≠ .survey)
    (far : ∀ q a, q ∈ s.awaited → t.At q a → rank h.level a = .lt) :
    ∀ g ∈ done ++ [h], Complete t rank g := by
  intro g hg
  rcases List.mem_append.1 hg with hg | hg
  · exact hs.complete g hg
  · rw [List.mem_singleton.1 hg]
    exact hs.terraced.complete order far (hs.recent phase) hs.nodup_held

/-- A region beneath the top lies at the level of a position that is awaited, unless it is the idle
floor, of which there is nothing beneath. -/
theorem guard_or_floor (hs : Layered rank t s n h ((m, g) :: rest) done) :
    (∃ q a, q ∈ s.awaited ∧ t.At q a ∧ rank a g.level = .eq) ∨
      m = 0 ∧ g.held = [] ∧ rest = [] ∧ g.level = s.floor ∧ s.basins ≠ [] := by
  rcases hs.terraced.guarded (m, g) List.mem_cons_self with ⟨hm, hheld⟩ | hguard
  · obtain ⟨-, hnil, -⟩ | ⟨m', g', more, bs, heq, hbasins, hlevel, -, hstack⟩ :=
      hs.booked.floor_or_basin
    · simp at hnil
    simp only [List.cons.injEq, Prod.mk.injEq] at heq
    obtain ⟨⟨rfl, rfl⟩, rfl⟩ := heq
    obtain ⟨hrest, rfl⟩ := eq_nil_of_zero (List.nodup_cons.1 hs.booked.nodup).2 hm hstack
    exact .inr ⟨hm, hheld, hrest, hlevel, by simp [hbasins]⟩
  · exact .inl hguard

/-- A log with the same positions books them still. -/
theorem logged (hs : Layered rank t s n h rest done) {l : Ledger Nat α}
    (hadded : u.added = s.added) (run : Ledger.empty.run u.log.toList = some l)
    (complete : ∀ g ∈ l.complete, Complete t rank g) : Logged rank t u l where
  run := run
  complete := complete
  reachable := fun _ hp => hs.accounted.reachable_added (hadded ▸ hp)
  few := hadded ▸ hs.accounted.length_added_le

section Climb

variable (order : TotalPreorder rank) (phase : s.phase = .rise) {slot : Nat} {r : Record α}
  {left : Frontier α} (popped : s.frontier.pop rank = some (slot, r, left))
  (other : rank r.level s.level ≠ .eq)

include order phase popped other

/-- A record that is popped at another level lies above the topmost region. -/
theorem popped_above (hs : Layered rank t s n h rest done) : rank h.level r.level = .lt := by
  obtain ⟨hposition, hat, -⟩ := hs.accounted.lowest order hs.ranked phase popped
  by_contra hnot
  have hle : rank r.level s.level ≠ .gt :=
    order.le_of_le_of_eq (order.not_lt_iff.1 hnot) hs.level
  have hge : rank s.level r.level ≠ .gt :=
    order.le_of_eq_of_le (order.eq_symm hs.level) (hs.terraced.above _ _ hposition hat)
  exact other (order.eq_of_le_of_le hle hge)

theorem complete_of_climb (hs : Layered rank t s n h rest done) :
    ∀ g ∈ done ++ [h], Complete t rank g := by
  obtain ⟨-, -, hlow⟩ := hs.accounted.lowest order hs.ranked phase popped
  have up := hs.popped_above order phase popped other
  exact hs.complete_concat order (by simp [phase]) fun q a hq ha =>
    order.lt_of_lt_of_le up (hlow q a hq ha)

/-- Where the region beneath lies higher still, the topmost one is raised to the level of the
record. -/
theorem climb_lt (hs : Layered rank t s n h ((m, g) :: rest) done)
    (hrank : rank r.level g.level = .lt) :
    Layered rank t ((s.enter slot r left).settleAt rank r.level) n (h.settled.raise r.level)
      ((m, g) :: rest) (done ++ [h]) := by
  obtain ⟨-, -, hlow⟩ := hs.accounted.lowest order hs.ranked phase popped
  have up := hs.popped_above order phase popped other
  have booked : Booked (s.enter slot r left) _ := hs.booked.congr rfl rfl rfl rfl
  obtain ⟨hphase, booked'⟩ := booked.settle_lt hrank
  refine {
    running := by rw [State.ended, hphase]; rfl
    accounted := (hs.accounted.enter phase popped).settleAt (by rw [hphase]; simp [State.enter])
    ranked := Frontier.ranked_release (Frontier.ranked_pop order hs.ranked popped)
    booked := booked'
    terraced := ?_
    level := order.refl _
    recent := fun hne => absurd hphase hne
    complete := hs.complete_of_climb order phase popped other }
  refine (hs.terraced.raise order up hlow fun e he => ?_).congr fun p => ?_
  · rcases List.mem_cons.1 he with rfl | he
    · exact .inr hrank
    · exact ((List.pairwise_cons.1 hs.terraced.chain).1 e he).imp_right (order.lt_trans hrank)
  · rw [awaited_settleAt hphase, (awaited_enter hs.accounted.intact phase popped).mem_iff]

/-- Where the region beneath lies level with the record, the topmost one is merged into it. -/
theorem climb_eq (hs : Layered rank t s n h ((m, g) :: rest) done)
    (hrank : rank r.level g.level = .eq) :
    Layered rank t ((s.enter slot r left).settleAt rank r.level) m (g.merge h.settled) rest
      (done ++ [h]) := by
  obtain ⟨-, -, hlow⟩ := hs.accounted.lowest order hs.ranked phase popped
  have up := hs.popped_above order phase popped other
  have booked : Booked (s.enter slot r left) _ := hs.booked.congr rfl rfl rfl rfl
  obtain ⟨hphase, booked'⟩ := booked.settle_eq hrank
  refine {
    running := by rw [State.ended, hphase]; rfl
    accounted := (hs.accounted.enter phase popped).settleAt (by rw [hphase]; simp [State.enter])
    ranked := Frontier.ranked_release (Frontier.ranked_pop order hs.ranked popped)
    booked := booked'
    terraced := ?_
    level := order.eq_symm hrank
    recent := fun hne => absurd hphase hne
    complete := hs.complete_of_climb order phase popped other }
  refine (hs.terraced.merge order (order.lt_of_lt_of_eq up hrank) fun q a hq ha => ?_).congr
    fun p => ?_
  · exact order.le_of_eq_of_le (order.eq_symm hrank) (hlow q a hq ha)
  · rw [awaited_settleAt hphase, (awaited_enter hs.accounted.intact phase popped).mem_iff]

/-- A rise to another level emits the topmost region, unless that is the floor. -/
theorem climb (hs : Layered rank t s n h rest done) :
    Charted rank t ((s.enter slot r left).settleAt rank r.level) := by
  obtain ⟨hposition, hat, hlow⟩ := hs.accounted.lowest order hs.ranked phase popped
  have complete := hs.complete_of_climb order phase popped other
  have booked : Booked (s.enter slot r left) _ := hs.booked.congr rfl rfl rfl rfl
  have high : rank r.level s.floor = .gt → t.Exceeds rank s.floor := fun hgt =>
    ⟨r.position, r.level, hs.accounted.tallied.reachable _
      ((hs.accounted.tallied.marks _).2 (.inr hposition)), hat, hgt⟩
  cases rest with
  | nil =>
    obtain ⟨hbasins, -, -, hfloor⟩ | ⟨m, g, more, bs, heq, -⟩ := hs.booked.floor_or_basin
    · obtain ⟨hphase, hrun⟩ := booked.settle_floor rank r.level hbasins
      have up := hs.popped_above order phase popped other
      exact .stranded _ hphase ⟨hs.logged added_settleAt hrun hs.complete,
        high (order.gt_iff_lt.2 (hfloor ▸ up))⟩
    · cases heq
  | cons e more =>
    obtain ⟨m, g⟩ := e
    cases hrank : rank r.level g.level with
    | lt => exact .going _ _ _ _ (hs.climb_lt order phase popped other hrank)
    | eq => exact .going _ _ _ _ (hs.climb_eq order phase popped other hrank)
    | gt =>
      -- only the idle floor can lie below the record: other regions are guarded by one that waits
      rcases hs.guard_or_floor with ⟨q, a, hq, ha, heq⟩ | ⟨rfl, -, rfl, hfloor, -⟩
      · exact absurd hrank (order.le_of_le_of_eq (hlow q a hq ha) heq)
      · obtain ⟨hphase, hrun⟩ := booked.settle_gt hrank
        exact .stranded _ hphase ⟨hs.logged added_settleAt hrun complete, high (hfloor ▸ hrank)⟩

end Climb

/-! ## The end -/

/-- Nothing is fresh in a region that holds nothing. -/
theorem fresh_eq_nil (hs : Layered rank t s n h ((m, g) :: rest) done) (hg : g.held = []) :
    g.fresh = [] := by
  have hsealed := hs.terraced.sealed g (by simp)
  rw [List.eq_nil_iff_forall_not_mem]
  intro p hp
  have hheld := ((hsealed.fresh p).1 hp).1
  simp [hg] at hheld

/-- A position of the topmost region can be reached at the level of the flood. -/
theorem exists_reachable (order : TotalPreorder rank) (hs : Layered rank t s n h rest done)
    (phase : s.phase ≠ .survey) : ∃ p a, t.Reachable p ∧ t.At p a ∧ rank a s.level = .eq := by
  obtain ⟨p, hp⟩ := List.exists_mem_of_ne_nil _ (hs.recent phase)
  obtain ⟨hheld, a, ha, heq⟩ := ((hs.terraced.sealed h List.mem_cons_self).fresh p).1 hp
  have hadded : p ∈ s.added := hs.booked.mem_added_iff.2 ⟨h, List.mem_cons_self, hheld⟩
  exact ⟨p, a, hs.accounted.reachable_added hadded, ha, order.eq_trans heq hs.level⟩

section Close

variable (order : TotalPreorder rank) (phase : s.phase = .close)

include phase

theorem awaited_of_close (hs : Layered rank t s n h rest done) : s.awaited = [] := by
  rw [State.awaited_of_ne (by simp [phase]), hs.accounted.waiting_of_close phase]
  rfl

include order

theorem complete_of_close (hs : Layered rank t s n h rest done) :
    ∀ g ∈ done ++ [h], Complete t rank g := by
  refine hs.complete_concat order (by simp [phase]) fun q a hq => ?_
  simp [hs.awaited_of_close phase] at hq

/-- Where no basin is left, the close emits the floor. -/
theorem close_floor (hs : Layered rank t s n h [] done) : Charted rank t (s.close rank) := by
  obtain ⟨hbasins, -, rfl, hfloor⟩ | ⟨m, g, more, bs, heq, -⟩ := hs.booked.floor_or_basin
  · have hclose : s.close rank = State.tell { s with phase := .finished } (.emit 0) := by
      simp [State.close, hbasins]
    have accounted : (s.close rank).phase ≠ .stranded → Accounted t (s.close rank) :=
      hs.accounted.close phase
    rw [hclose] at accounted ⊢
    refine .finished ⟨[(0, h.settled)], done ++ [h]⟩ rfl (accounted (by simp)) ?_
    refine ⟨hs.logged added_tell_emit ?_ (hs.complete_of_close order phase), by simp [Holding.settled], h,
      by simp, by simp [Ledger.held, Holding.settled], by simp [hfloor, order.refl]⟩
    rw [State.log_tell, Array.toList_push, Ledger.run_concat hs.booked.run]
    exact Ledger.apply_emit_head hs.booked.not_mem_tail
  · cases heq

/-- Where one basin is left over the idle floor, the close emits the basin and settles it. -/
theorem close_basin (hs : Layered rank t s n h ((m, g) :: rest) done) :
    Charted rank t (s.close rank) := by
  obtain ⟨q, a, hq, -⟩ | ⟨rfl, hheld, rfl, hfloor, hbasins⟩ := hs.guard_or_floor
  · simp [hs.awaited_of_close phase] at hq
  have complete := hs.complete_of_close order phase
  have hlast : (done ++ [h]).getLast? = some h := by simp
  have hfresh : g.fresh = [] := hs.fresh_eq_nil hheld
  have accounted : (s.close rank).phase ≠ .stranded → Accounted t (s.close rank) :=
    hs.accounted.close phase
  have hclose : s.close rank = State.settleAt rank { s with phase := .finished } s.level := by
    simp [State.close, hbasins]
  have booked : Booked { s with phase := .finished } ⟨[(n, h), (0, g)], done⟩ :=
    hs.booked.congr rfl rfl rfl rfl
  rw [hclose] at accounted ⊢
  cases hrank : rank s.level g.level with
  | lt =>
    obtain ⟨hphase, booked'⟩ := booked.settle_lt hrank
    refine .finished _ hphase (accounted (by simp [hphase]))
      ⟨hs.logged added_settleAt booked'.run complete, ?_, h, hlast, ?_, ?_⟩
    · simp [Holding.settled, Holding.raise, hfresh]
    · simp [Ledger.held, Holding.settled, Holding.raise, hheld]
    · exact order.le_of_lt (order.lt_of_eq_of_lt hs.level (hfloor ▸ hrank))
  | eq =>
    obtain ⟨hphase, booked'⟩ := booked.settle_eq hrank
    refine .finished _ hphase (accounted (by simp [hphase]))
      ⟨hs.logged added_settleAt booked'.run complete, ?_, h, hlast, ?_, ?_⟩
    · simp [Holding.settled, Holding.merge, hfresh]
    · simp [Ledger.held, Holding.settled, Holding.merge, hheld]
    · exact order.le_of_eq (order.eq_trans hs.level (hfloor ▸ hrank))
  | gt =>
    obtain ⟨hphase, hrun⟩ := booked.settle_gt hrank
    obtain ⟨p, a, hreach, ha, heq⟩ := hs.exists_reachable order (by simp [phase])
    refine .stranded _ hphase ⟨hs.logged added_settleAt hrun complete, p, a, hreach, ha, ?_⟩
    rw [order.gt_iff_lt] at hrank ⊢
    exact order.lt_of_lt_of_eq (hfloor ▸ hrank) (order.eq_symm heq)

/-- The close emits the last region. -/
theorem close (hs : Layered rank t s n h rest done) : Charted rank t (s.close rank) := by
  cases rest with
  | nil => exact hs.close_floor order phase
  | cons e rest => exact hs.close_basin order phase

end Close

/-- Every move keeps the layers, or ends the flood as it should. -/
theorem move (order : TotalPreorder rank) (hs : Layered rank t s n h rest done)
    (flood : t.Floodable) (fits : t.Fits) (moves : Moves rank t s u) : Charted rank t u := by
  cases moves with
  | look phase _ looks =>
    obtain ⟨n, h, rest, done, hu⟩ := hs.look order phase looks
    exact .going n h rest done hu
  | arrive phase ended => exact .going _ _ _ _ (hs.arrive order flood fits phase ended)
  | stay phase popped same => exact .going _ _ _ _ (hs.stay order phase popped same)
  | climb phase popped other => exact hs.climb order phase popped other
  | close phase => exact hs.close order phase

end Layered

theorem Moves.floor_eq (moves : Moves rank t s u) : u.floor = s.floor := by
  cases moves with
  | look _ _ looks => cases looks <;> rfl
  | arrive => rfl
  | stay => rfl
  | climb => rfl
  | close =>
    unfold State.close
    split <;> rfl

/-- An ended flood makes no moves. -/
theorem Moves.running (moves : Moves rank t s u) : s.ended = false := by
  cases moves <;> simp [State.ended, *]

/-- Every flood that starts is charted all the way. -/
theorem Charted.moves (order : TotalPreorder rank) (flood : t.Floodable) (fits : t.Fits)
    (hs : Charted rank t s) (moves : Relation.ReflTransGen (Moves rank t) s u) :
    Charted rank t u ∧ u.floor = s.floor := by
  induction moves with
  | refl => exact ⟨hs, rfl⟩
  | tail _ hmove ih =>
    refine ⟨?_, hmove.floor_eq.trans ih.2⟩
    obtain ⟨n, h, rest, done, layered⟩ := ih.1.layered hmove.running
    exact layered.move order flood fits hmove

/-- A flood starts with one basin over the idle floor. -/
theorem Starts.layered (order : TotalPreorder rank) {lastLevel : α} (hs : Starts t lastLevel s) :
    Layered rank t s 1 (.ofLevel s.level) [(0, .ofLevel lastLevel)] [] where
  running := by simp [State.ended, hs.phase]
  accounted := hs.accounted
  ranked := hs.frontier ▸ Frontier.ranked_empty
  booked := {
    run := by rw [hs.log]; rfl
    stack := by rw [hs.basins, hs.floor]; rfl
    lt_nextName := by simp [hs.nextName, Ledger.names] }
  terraced := by
    refine .start order (hs.accounted.at_position hs.phase) (fun r => ?_) lastLevel
    simp [State.awaited_of_survey hs.phase, hs.frontier]
  level := order.refl _
  recent := fun hne => absurd hs.phase hne
  complete := by simp

/-- From its start, a flood in an order runs until it is finished or stranded. -/
theorem exists_charted (order : TotalPreorder rank) (flood : t.Floodable) (fits : t.Fits)
    (lastLevel : α) : ∃ s u l, State.start t lastLevel = .ok s ∧ s.run rank t = .ok u ∧
      u.floor = lastLevel ∧ (u.phase = .finished ∧ Accounted t u ∧ Finished rank t u l ∨
        u.phase = .stranded ∧ Stranded rank t u l) := by
  obtain ⟨s, u, hstart, starts, hrun, hmoves, hended, -⟩ := exists_run flood fits rank lastLevel
  have hs : Charted rank t s := .going _ _ _ _ (starts.layered order)
  obtain ⟨hu, hfloor⟩ := hs.moves order flood fits hmoves
  rw [starts.floor] at hfloor
  cases hu with
  | going n h rest done layered =>
    have running := layered.running
    simp [hended] at running
  | finished l phase accounted finished =>
    exact ⟨s, u, l, hstart, hrun, hfloor, .inl ⟨phase, accounted, finished⟩⟩
  | stranded l phase stranded =>
    exact ⟨s, u, l, hstart, hrun, hfloor, .inr ⟨phase, stranded⟩⟩

end LevelTree.Flood
