import LevelTree.Proofs.Flood.Layers
import LevelTree.Proofs.Flood.Visits

/-!
# The levels of a flood

How the levels of the stack, of the flood and of the frontier lie to each other between any two ticks
of a flood in an order (`Disciplined`). It follows that a region is never raised to a level that comes
before its own (`Ascends`), and that each settling of the stack emits one region, as long as nothing
above the last level can be reached (`level_discipline`).
-/

namespace LevelTree.Flood

variable {α : Type} {rank : Ranking α} {t : Terrain α} {s u : State α} {l : Ledger Nat α} {n : Nat}
  {h : Holding α} {rest : List (Nat × Holding α)} {done : List (Holding α)} {level lastLevel : α}

/-- How levels lie between two ticks. -/
structure Disciplined (rank : Ranking α) (s : State α) : Prop where
  /-- A region on the stack, or beneath it, is at the level that it was given last. -/
  given : ∀ b ∈ s.basins ++ [⟨0, s.floor⟩], levelOf? s.log.toList b.name = some b.level
  falling : s.basins.Pairwise fun upper lower => rank upper.level lower.level = .lt
  level : rank s.top.level s.level = .eq
  above : ∀ r ∈ s.frontier.waiting, rank s.level r.level ≠ .gt
  /-- Of each region beneath the top, a position waits. -/
  guarded : ∀ b ∈ s.basins.tail, ∃ r ∈ s.frontier.waiting, rank r.level b.level = .eq
  last : s.phase = .close → s.basins.length ≤ 1

/-- A region is only ever raised to a level that does not come before the one it was given last. -/
def Ascends (rank : Ranking α) (events : List (Event Nat α)) : Prop :=
  ∀ before name level after, events = before ++ .raise name level :: after →
    ∃ old, levelOf? before name = some old ∧ rank level old ≠ .lt

/-- The next tick settles the stack at the level. -/
inductive Settles (rank : Ranking α) (s : State α) : α → Prop
  | rise {slot r left} (phase : s.phase = .rise)
      (popped : s.frontier.pop rank = some (slot, r, left)) (other : rank r.level s.level ≠ .eq) :
      Settles rank s r.level
  | close (phase : s.phase = .close) (basins : s.basins ≠ []) : Settles rank s s.level

theorem Settles.running (settles : Settles rank s level) : s.ended = false := by
  cases settles <;> simp [State.ended, *]

/-- The tick logs what settling the stack at the level does. -/
theorem Settles.tick (settles : Settles rank s level) : ∃ u, s.tick rank t = .ok u ∧
    u.log = s.log ++ (settle rank s.floor level s.basins).events := by
  cases settles with
  | @rise slot r left phase popped other =>
    have htick : s.tick rank t = .ok ((s.enter slot r left).settleAt rank r.level) := by
      simp [State.tick, State.rise, State.enter, phase, popped, other]
    exact ⟨_, htick, rfl⟩
  | close phase basins =>
    have htick : s.tick rank t = .ok (State.settleAt rank { s with phase := .finished } s.level) := by
      simp [State.tick, State.close, phase, basins]
    exact ⟨_, htick, rfl⟩

/-! ## The stack and its levels -/

/-- Only the floor has the name of the floor. -/
theorem Booked.name_ne_zero (hb : Booked s l) {b : Basin α} (hmem : b ∈ s.basins) : b.name ≠ 0 := by
  have hnames : l.names = s.basins.map Basin.name ++ [0] := by
    have hstack := congrArg (List.map Basin.name) hb.stack
    simpa [Ledger.names, basinOf, Function.comp_def] using hstack
  have hnodup : (s.basins.map Basin.name ++ [0]).Nodup := hnames ▸ hb.nodup
  exact (List.nodup_append.1 hnodup).2.2 _ (List.mem_map_of_mem hmem) 0 (by simp)

theorem Booked.given (hb : Booked s l) :
    ∀ b ∈ s.basins ++ [⟨0, s.floor⟩], levelOf? s.log.toList b.name = some b.level := by
  intro b hmem
  rw [← hb.stack] at hmem
  obtain ⟨e, he, rfl⟩ := List.mem_map.1 hmem
  exact Ledger.leveled_of_run hb.run e.1 e.2 (Entries.lookup_of_mem hb.nodup he)

/-- The regions beneath a basin are those beneath the topmost entry. -/
theorem Booked.mem_rest (hb : Booked s ⟨(n, h) :: rest, done⟩) {b : Basin α}
    (hmem : b ∈ s.basins.tail) : ∃ e ∈ rest, basinOf e = b := by
  have hstack : ⟨n, h.level⟩ :: rest.map basinOf = s.basins ++ [⟨0, s.floor⟩] := hb.stack
  cases hbasins : s.basins with
  | nil => simp [hbasins] at hmem
  | cons top basins =>
    rw [hbasins, List.cons_append, List.cons.injEq] at hstack
    have hin : b ∈ rest.map basinOf := by
      rw [hstack.2]
      exact List.mem_append_left _ (by simpa [hbasins] using hmem)
    exact List.mem_map.1 hin

namespace Layered

theorem falling (hs : Layered rank t s n h rest done) :
    s.basins.Pairwise fun upper lower => rank upper.level lower.level = .lt := by
  have hentries : ((n, h) :: rest).Pairwise fun d e => Idle e ∨ rank d.2.level e.2.level = .lt :=
    .cons hs.terraced.under hs.terraced.chain
  have hstack : (s.basins ++ [(⟨0, s.floor⟩ : Basin α)]).Pairwise fun upper lower =>
      lower.name = 0 ∨ rank upper.level lower.level = .lt := by
    rw [← hs.booked.stack, List.pairwise_map]
    exact hentries.imp fun hor => hor.imp_left And.left
  have hbasins := (List.pairwise_append.1 hstack).1
  exact hbasins.imp_of_mem fun _ hlower hor => hor.resolve_left (hs.booked.name_ne_zero hlower)

/-- What is awaited at a level is where the flood stands, or waits with a record of that level. -/
theorem position_or_waiting (hs : Layered rank t s n h rest done) {q : Position} {a : α}
    (hq : q ∈ s.awaited) (ha : t.At q a) :
    a = s.level ∨ ∃ r ∈ s.frontier.waiting, r.level = a := by
  rcases List.mem_append.1 hq with hq | hq
  · split at hq
    next phase =>
      obtain rfl : q = s.position := by simpa using hq
      exact .inl (ha.unique (hs.accounted.at_position phase))
    next => simp at hq
  · obtain ⟨r, hr, rfl⟩ := List.mem_map.1 hq
    exact .inr ⟨r, hr, Option.some.inj ((hs.accounted.levels r hr).symm.trans ha.2)⟩

theorem above (order : TotalPreorder rank) (hs : Layered rank t s n h rest done) :
    ∀ r ∈ s.frontier.waiting, rank s.level r.level ≠ .gt := by
  intro r hr
  have hq : r.position ∈ s.awaited := List.mem_append_right _ (List.mem_map_of_mem hr)
  have hat : t.At r.position r.level := hs.accounted.at_of_awaited hq (hs.accounted.levels r hr)
  exact order.le_of_eq_of_le (order.eq_symm hs.level) (hs.terraced.above _ _ hq hat)

theorem guarded (order : TotalPreorder rank) (hs : Layered rank t s n h rest done) :
    ∀ b ∈ s.basins.tail, ∃ r ∈ s.frontier.waiting, rank r.level b.level = .eq := by
  intro b hb
  obtain ⟨e, he, rfl⟩ := hs.booked.mem_rest hb
  have busy : ¬ Idle e := fun hidle => hs.booked.name_ne_zero (List.mem_of_mem_tail hb) hidle.1
  obtain ⟨q, a, hq, ha, heq⟩ := (hs.terraced.guarded e he).resolve_left busy
  rcases hs.position_or_waiting hq ha with rfl | ⟨r, hr, rfl⟩
  · -- the flood stands at the level of the top, which is lower
    have hlt : rank h.level e.2.level = .lt := (hs.terraced.under e he).resolve_left busy
    simp [order.eq_trans hs.level heq] at hlt
  · exact ⟨r, hr, heq⟩

/-- The levels lie as they should wherever a flood goes on. -/
theorem disciplined (order : TotalPreorder rank) (hs : Layered rank t s n h rest done) :
    Disciplined rank s where
  given := hs.booked.given
  falling := hs.falling
  level := by
    rw [hs.booked.top_eq]
    exact hs.level
  above := hs.above order
  guarded := hs.guarded order
  last := by
    intro phase
    have htail : s.basins.tail = [] := by
      rw [List.eq_nil_iff_forall_not_mem]
      intro b hb
      obtain ⟨r, hr, -⟩ := hs.guarded order b hb
      simp [hs.accounted.waiting_of_close phase] at hr
    have hlength := congrArg List.length htail
    rw [List.length_tail, List.length_nil] at hlength
    omega

end Layered

/-! ## Raises -/

theorem Ascends.concat {events : List (Event Nat α)} (hs : Ascends rank events) {e : Event Nat α}
    (raised : ∀ name level, e = .raise name level →
      ∃ old, levelOf? events name = some old ∧ rank level old ≠ .lt) :
    Ascends rank (events ++ [e]) := by
  intro before name level after heq
  rcases List.eq_nil_or_concat after with rfl | ⟨after, last, rfl⟩
  · obtain ⟨rfl, he⟩ := List.append_inj' heq rfl
    exact raised name level (by simpa using he)
  · have hassoc : events ++ [e] = (before ++ .raise name level :: after) ++ [last] := by
      simpa using heq
    exact hs before name level after (List.append_inj' hassoc rfl).1

theorem Ascends.silent {events : List (Event Nat α)} (hs : Ascends rank events) {e : Event Nat α}
    (silent : ∀ name level, e ≠ .raise name level) : Ascends rank (events ++ [e]) :=
  hs.concat fun name level heq => absurd heq (silent name level)

/-- Settling the stack raises no region to a level before its own, when the top is not one that
already lies above the level. -/
theorem Ascends.settle {floor : α} {basins : List (Basin α)} {events : List (Event Nat α)}
    (hs : Ascends rank events) (given : ∀ b ∈ basins, levelOf? events b.name = some b.level)
    (up : ∀ b ∈ basins.head?, rank level b.level ≠ .lt) :
    Ascends rank (events ++ (settle rank floor level basins).events) := by
  induction basins generalizing events with
  | nil => simpa [Flood.settle] using hs
  | cons b rest ih =>
    have hemit : Ascends rank (events ++ [.emit b.name]) := hs.silent (by simp)
    simp only [Flood.settle]
    split
    next =>
      rw [List.append_cons]
      refine hemit.concat fun name level heq => ?_
      cases heq
      refine ⟨b.level, ?_, up b (by simp)⟩
      rw [levelOf?_concat]
      exact given b (by simp)
    next =>
      rw [List.append_cons]
      exact hemit.silent (by simp)
    next hgt =>
      have hmerge : Ascends rank
          (events ++ [.emit b.name] ++ [.merge (rest.headD ⟨0, floor⟩).name b.name]) :=
        hemit.silent (by simp)
      rw [List.append_cons, List.append_cons]
      refine ih hmerge (fun c hc => ?_) fun c hc => ?_
      · rw [levelOf?_concat, levelOf?_concat]
        exact given c (List.mem_cons_of_mem _ hc)
      · rw [List.headD_eq_head?_getD, hc, Option.getD_some] at hgt
        simp [hgt]

/-- What is logged by a move of a flood in an order raises no region to a level before its own. -/
theorem Layered.ascends (order : TotalPreorder rank) (hs : Layered rank t s n h rest done)
    (ascends : Ascends rank s.log.toList) (moves : Moves rank t s u) : Ascends rank u.log.toList := by
  have given := hs.booked.given
  have settled : ∀ {level}, rank level h.level ≠ .lt →
      Ascends rank (s.log.toList ++ (Flood.settle rank s.floor level s.basins).events) := by
    intro level up
    refine ascends.settle (fun b hb => given b (List.mem_append_left _ hb)) fun b hb => ?_
    have htop : s.top = ⟨n, h.level⟩ := hs.booked.top_eq
    rw [State.top, List.headD_eq_head?_getD, hb, Option.getD_some] at htop
    rwa [htop]
  cases moves with
  | look _ _ looks =>
    cases looks with
    | skip | wait => exact ascends
    | descend =>
      rw [State.log_sink, Array.toList_push]
      exact ascends.silent (by simp)
  | arrive =>
    rw [State.log_arrive, Array.toList_push]
    exact ascends.silent (by simp)
  | stay => exact ascends
  | @climb slot r left phase popped other =>
    have up := hs.popped_above order phase popped other
    rw [State.log_settleAt, Array.toList_appendList]
    exact settled (by rw [order.gt_iff_lt.2 up]; decide)
  | close =>
    unfold State.close
    split
    · rw [State.log_tell, Array.toList_push]
      exact ascends.silent (by simp)
    · rw [State.log_settleAt, Array.toList_appendList]
      exact settled (by rw [order.eq_symm hs.level]; decide)

/-! ## Emissions -/

/-- Settling a stack emits its top only, when the next basin does not lie below the level. -/
theorem emits_once {floor : α} {b : Basin α} {basins : List (Basin α)}
    (high : ∀ c ∈ basins.head?, rank level c.level ≠ .gt) :
    (settle rank floor level (b :: basins)).events.countP Event.isEmit = 1 := by
  rw [settle]
  dsimp only
  split
  · rfl
  · rfl
  next hgt =>
    cases basins with
    | nil => rfl
    | cons c rest => exact absurd hgt (high c rfl)

/-- Where nothing above the floor can be reached, a settling emits one region. -/
theorem Layered.emits_once (order : TotalPreorder rank) (hs : Layered rank t s n h rest done)
    (low : ¬ t.Exceeds rank s.floor) (settles : Settles rank s level) :
    (settle rank s.floor level s.basins).events.countP Event.isEmit = 1 := by
  cases settles with
  | @rise slot r left phase popped other =>
    obtain ⟨hposition, hat, hlow⟩ := hs.accounted.lowest order hs.ranked phase popped
    cases hbasins : s.basins with
    | nil =>
      -- the floor is on top, and the record lies above it
      have hfloor : s.floor = h.level := by
        have htop : s.top = ⟨n, h.level⟩ := hs.booked.top_eq
        rw [State.top, hbasins] at htop
        exact congrArg Basin.level htop
      have up := hs.popped_above order phase popped other
      have hreach : t.Reachable r.position := hs.accounted.tallied.reachable _
        ((hs.accounted.tallied.marks _).2 (.inr hposition))
      exact absurd ⟨_, _, hreach, hat, hfloor ▸ order.gt_iff_lt.2 up⟩ low
    | cons b basins =>
      refine Flood.emits_once fun c hc => ?_
      have hc : c ∈ s.basins.tail := by
        rw [hbasins, List.tail_cons]
        exact List.mem_of_mem_head? hc
      obtain ⟨w, hw, heq⟩ := hs.guarded order c hc
      exact order.le_of_le_of_eq
        (order.not_lt_iff.1 (Frontier.not_lt_of_pop order hs.ranked popped w hw)) heq
  | close phase nonempty =>
    have hlast := (hs.disciplined order).last phase
    cases hbasins : s.basins with
    | nil => exact absurd hbasins nonempty
    | cons b basins =>
      obtain rfl : basins = [] := by
        rw [hbasins, List.length_cons] at hlast
        exact List.length_eq_zero_iff.1 (by omega)
      exact Flood.emits_once (by simp)

/-! ## The discipline -/

/-- A flood in an order raises no region to a level before its own. -/
theorem ascends_of_moves (order : TotalPreorder rank) (flood : t.Floodable) (fits : t.Fits)
    (hs : Charted rank t s) (ascends : Ascends rank s.log.toList)
    (moves : Relation.ReflTransGen (Moves rank t) s u) : Ascends rank u.log.toList := by
  induction moves with
  | refl => exact ascends
  | @tail v w hmoves hmove ih =>
    have charted := (hs.moves order flood fits hmoves).1
    obtain ⟨n, h, rest, done, layered⟩ := charted.layered hmove.running
    exact layered.ascends order ih hmove

/-- What a visited state is in an order, and what it logged. -/
theorem Visits.charted (order : TotalPreorder rank) (visits : Visits rank t lastLevel s) :
    Charted rank t s ∧ s.floor = lastLevel ∧ Ascends rank s.log.toList := by
  obtain ⟨s₀, starts, flood, hcases⟩ := visits.cases
  have hs₀ : Charted rank t s₀ := .going _ _ _ _ (starts.layered order)
  have hascends : Ascends rank s₀.log.toList := by
    rw [starts.log]
    have hnil : Ascends rank ([] : List (Event Nat α)) := by simp [Ascends]
    exact (hnil.silent (by simp)).silent (by simp)
  rcases hcases with rfl | ⟨fits, moves⟩
  · exact ⟨hs₀, starts.floor, hascends⟩
  · obtain ⟨hs, hfloor⟩ := hs₀.moves order flood fits moves
    exact ⟨hs, hfloor.trans starts.floor, ascends_of_moves order flood fits hs₀ hascends moves⟩

/-- Between any two ticks of a flood in an order the levels lie as they should, no region was ever
raised to a level before its own, and the next settling emits one region if nothing above the last
level can be reached. -/
theorem level_discipline (t : Terrain α) (order : TotalPreorder rank) (lastLevel : α)
    (visits : Visits rank t lastLevel s) :
    (s.ended = false → Disciplined rank s) ∧ Ascends rank s.log.toList ∧
      (¬ t.Exceeds rank lastLevel → ∀ level, Settles rank s level → ∃ u, s.tick rank t = .ok u ∧
        u.log = s.log ++ (settle rank s.floor level s.basins).events ∧
        (settle rank s.floor level s.basins).events.countP Event.isEmit = 1) := by
  obtain ⟨charted, rfl, ascends⟩ := visits.charted order
  refine ⟨fun running => ?_, ascends, fun low level settles => ?_⟩
  · obtain ⟨n, h, rest, done, layered⟩ := charted.layered running
    exact layered.disciplined order
  · obtain ⟨u, htick, hlog⟩ := settles.tick (t := t)
    obtain ⟨n, h, rest, done, layered⟩ := charted.layered settles.running
    exact ⟨u, htick, hlog, layered.emits_once order low settles⟩

/-- Two cells, the second one lower. -/
def slope : Terrain Nat := ⟨[2], [0], fun p => if p = [1] then some 1 else some 5⟩

/-- The flood of the slope goes down to the second cell at once. With that cell added there are two
basins, and the first cell waits to be entered again at the level of the lower of them. -/
theorem level_discipline_slope : TotalPreorder (Ranking.ofKey Int.ofNat) ∧
    ∃ s, Visits (Ranking.ofKey Int.ofNat) slope 9 s ∧ s.basins = [⟨2, 1⟩, ⟨1, 5⟩] ∧
      Disciplined (Ranking.ofKey Int.ofNat) s ∧ Settles (Ranking.ofKey Int.ofNat) s 5 ∧
      (settle (Ranking.ofKey Int.ofNat) s.floor 5 s.basins).events.countP Event.isEmit = 1 := by
  have heval : (match State.start slope 9 with
      | .error _ => none
      | .ok s => match s.tick (Ranking.ofKey Int.ofNat) slope with
        | .error _ => none
        | .ok u => some (s.phase, u.phase, u.basins, u.level,
            (u.frontier.pop (Ranking.ofKey Int.ofNat)).map (·.2.1.level))) =
      some (.survey, .rise, [⟨2, 1⟩, ⟨1, 5⟩], 1, some 5) := by decide +kernel
  split at heval
  · cases heval
  next s₀ hstart =>
  split at heval
  · cases heval
  next s htick =>
  simp only [Option.some.injEq, Prod.mk.injEq, Option.map_eq_some_iff] at heval
  obtain ⟨hsurvey, hrise, hbasins, hlevel, ⟨slot, r, left⟩, hpop, hr⟩ := heval
  have visits : Visits (Ranking.ofKey Int.ofNat) slope 9 s :=
    ⟨s₀, hstart, .single ⟨by simp [State.ended, hsurvey], htick⟩⟩
  have settles : Settles (Ranking.ofKey Int.ofNat) s 5 := by
    have other : Ranking.ofKey Int.ofNat r.level s.level ≠ .eq := by
      rw [hr, hlevel]
      decide
    exact hr ▸ .rise hrise hpop other
  have low : ¬ slope.Exceeds (Ranking.ofKey Int.ofNat) 9 := by
    rintro ⟨p, a, -, ha, hgt⟩
    have hlevel : slope.level? p = some a := ha.2
    simp only [slope] at hlevel
    split at hlevel <;> cases hlevel <;> exact absurd hgt (by decide)
  obtain ⟨disciplined, -, emits⟩ := level_discipline slope (.ofKey _) 9 visits
  obtain ⟨-, -, -, once⟩ := emits low 5 settles
  exact ⟨.ofKey _, s, visits, hbasins, disciplined (by simp [State.ended, hrise]), settles, once⟩

end LevelTree.Flood
