import LevelTree.Proofs.Flood.Visits

/-!
# What a flood asks its ranking

A flood compares no levels but those of its terrain and the last one. So rankings that agree on these
make the same flood (`run_congr`), and a ranking that is no order can be replaced by one that is, where
the levels that it does not order are missing.
-/

namespace LevelTree

variable {α : Type} {P : α → Prop} {rank rank' : Ranking α}

/-- The rankings rank the levels of a kind in the same way. -/
def AgreeOn (P : α → Prop) (rank rank' : Ranking α) : Prop :=
  ∀ a b, P a → P b → rank a b = rank' a b

/-! ## Frontiers -/

namespace Frontier

variable {pool : Array (Record α)} {q p : Frontier α} {r : Record α} {slot : Nat}

theorem before_congr (agree : AgreeOn P rank rank') (hpool : ∀ r ∈ pool, P r.level) :
    before rank pool = before rank' pool := by
  funext s t
  unfold before
  split
  next a b ha hb =>
    rw [agree _ _ (hpool a (Array.mem_of_getElem? ha)) (hpool b (Array.mem_of_getElem? hb))]
  next => rfl

/-- The records of the pool after a push are those of the pool before, and the new one. -/
theorem mem_pool_push (pushed : q.push rank r = .ok p) {w : Record α} (hw : w ∈ p.pool) :
    w ∈ q.pool ∨ w = r := by
  unfold push at pushed
  split at pushed
  · cases pushed
    exact Array.mem_push.1 hw
  · split at pushed
    next hlt =>
      cases pushed
      exact Array.mem_or_eq_of_mem_set (w := hlt) hw
    next => cases pushed

theorem push_congr (agree : AgreeOn P rank rank') (hpool : ∀ w ∈ q.pool, P w.level)
    (hr : P r.level) : q.push rank r = q.push rank' r := by
  have hpush : ∀ w ∈ q.pool.push r, P w.level := by
    intro w hw
    rcases Array.mem_push.1 hw with hw | rfl
    · exact hpool w hw
    · exact hr
  unfold push
  split
  · simp only [enqueue, before_congr agree hpush]
  next slot free _ =>
    split
    next hlt =>
      have hset : ∀ w ∈ q.pool.set slot r, P w.level := by
        intro w hw
        rcases Array.mem_or_eq_of_mem_set hw with hw | rfl
        · exact hpool w hw
        · exact hr
      simp only [enqueue, before_congr agree hset]
    next => rfl

theorem pop_congr (agree : AgreeOn P rank rank') (hpool : ∀ w ∈ q.pool, P w.level) :
    q.pop rank = q.pop rank' := by
  simp only [pop, before_congr agree hpool]

/-- A pop leaves the pool as it is, and its record is one of it. -/
theorem pool_pop (popped : q.pop rank = some (slot, r, p)) : p.pool = q.pool ∧ r ∈ q.pool := by
  unfold pop at popped
  split at popped
  · simp only [Option.some.injEq, Prod.mk.injEq] at popped
    obtain ⟨-, rfl, rfl⟩ := popped
    exact ⟨rfl, Array.getElem_mem _⟩
  · cases popped

end Frontier

namespace Flood

variable {t : Terrain α} {s u : State α} {p : Position} {i : Nat} {level lastLevel : α}

/-! ## Stacks -/

theorem settle_congr (agree : AgreeOn P rank rank') {floor : α} {basins : List (Basin α)}
    (hfloor : P floor) (hbasins : ∀ b ∈ basins, P b.level) (hlevel : P level) :
    settle rank floor level basins = settle rank' floor level basins := by
  induction basins with
  | nil => rfl
  | cons b rest ih =>
    have hrest : ∀ b ∈ rest, P b.level := fun b hb => hbasins b (List.mem_cons_of_mem _ hb)
    have hbelow : P (rest.headD ⟨0, floor⟩).level := by
      cases rest with
      | nil => exact hfloor
      | cons c rest => exact hrest c List.mem_cons_self
    simp only [settle, agree _ _ hlevel hbelow, ih hrest]

/-- What is left on the stack was there before, or is at the level at which the stack is settled. -/
theorem level_of_settle {floor : α} {basins : List (Basin α)} {b : Basin α}
    (hb : b ∈ (settle rank floor level basins).basins) : b ∈ basins ∨ b.level = level := by
  induction basins with
  | nil => cases hb
  | cons c rest ih =>
    unfold settle at hb
    dsimp only at hb
    split at hb
    · rcases List.mem_cons.1 hb with rfl | hb
      · exact .inr rfl
      · exact .inl (List.mem_cons_of_mem _ hb)
    · exact .inl (List.mem_cons_of_mem _ hb)
    · exact (ih hb).imp_left (List.mem_cons_of_mem _)

/-! ## States -/

theorem level_of_unseen (h : s.unseen? t p = .ok (some (i, level))) : t.level? p = some level := by
  simp only [State.unseen?, Extents.indexByGrowth_eq, bind, Except.bind, pure, Except.pure] at h
  split at h
  · simp at h
  · split at h
    · simp at h
    · obtain ⟨a, ha, heq⟩ := Option.map_eq_some_iff.1 (Except.ok.inj h)
      cases heq
      exact ha

/-- All levels that a flood has at hand are of one kind. -/
structure Within (P : α → Prop) (s : State α) : Prop where
  floor : P s.floor
  basins : ∀ b ∈ s.basins, P b.level
  level : P s.level
  pool : ∀ r ∈ s.frontier.pool, P r.level

theorem Within.settleAt (h : Within P s) (hlevel : P level) : Within P (s.settleAt rank level) :=
  { h with
    basins := fun b hb => by
      rcases level_of_settle hb with hb | hb
      · exact h.basins b hb
      · exact hb ▸ hlevel }

namespace State

variable (agree : AgreeOn P rank rank') (h : Within P s)

include agree h

theorem settleAt_congr (hlevel : P level) : s.settleAt rank level = s.settleAt rank' level := by
  simp only [settleAt, settle_congr agree h.floor h.basins hlevel]

theorem discover_congr (hlevel : P level) :
    s.discover rank p i level = s.discover rank' p i level ∧
      ∀ u, s.discover rank p i level = .ok u → Within P u := by
  have hwait := Frontier.push_congr (r := ⟨p, level, 0⟩) agree h.pool hlevel
  have hleave := Frontier.push_congr (r := ⟨s.position, s.level, s.walk.cursor⟩) agree h.pool h.level
  constructor
  · simp only [discover, agree _ _ hlevel h.level, hwait, hleave]
  · intro u hu
    simp only [discover, bind, Except.bind] at hu
    split at hu
    · cases hu
    · split at hu
      · split at hu
        · cases hu
        next hpush =>
          cases hu
          refine { h with pool := fun r hr => ?_ }
          rcases Frontier.mem_pool_push hpush hr with hr | rfl
          · exact h.pool r hr
          · exact hlevel
      · split at hu
        · cases hu
        next hpush =>
          cases hu
          refine ⟨h.floor, fun b hb => ?_, hlevel, fun r hr => ?_⟩
          · rcases List.mem_cons.1 hb with rfl | hb
            · exact hlevel
            · exact h.basins b hb
          · rcases Frontier.mem_pool_push hpush hr with hr | rfl
            · exact h.pool r hr
            · exact h.level

theorem rise_congr : s.rise rank = s.rise rank' ∧ Within P (s.rise rank) := by
  have hpop := Frontier.pop_congr agree h.pool
  unfold rise
  rw [hpop]
  cases hpopped : s.frontier.pop rank' with
  | none => exact ⟨rfl, { h with }⟩
  | some popped =>
    obtain ⟨slot, r, rest⟩ := popped
    obtain ⟨hpool, hmem⟩ := Frontier.pool_pop hpopped
    have hr : P r.level := h.pool r hmem
    have hentered : Within P { s with
        frontier := rest.release slot
        position := r.position
        level := r.level
        walk := s.walk.seek r.cursor
        phase := .survey } :=
      { h with level := hr, pool := fun w hw => h.pool w (hpool ▸ hw) }
    dsimp only
    rw [agree _ _ hr h.level]
    split
    · exact ⟨rfl, hentered⟩
    · exact ⟨settleAt_congr agree hentered hr, hentered.settleAt hr⟩

theorem close_congr : s.close rank = s.close rank' ∧ Within P (s.close rank) := by
  have hclosed : Within P { s with phase := .finished } := { h with }
  unfold close
  dsimp only
  split
  · exact ⟨rfl, { h with }⟩
  · exact ⟨settleAt_congr agree hclosed h.level, hclosed.settleAt h.level⟩

variable (terrain : ∀ p a, t.level? p = some a → P a)

include terrain

theorem examine_congr : s.examine rank t = s.examine rank' t ∧
    ∀ u, s.examine rank t = .ok u → Within P u := by
  simp only [examine, bind, Except.bind, pure, Except.pure]
  split
  · simp
  next n _ =>
    have hpast : Within P { s with walk := n.2 } := { h with }
    split
    · split
      · simp
      next found hunseen =>
        cases found with
        | none =>
          refine ⟨rfl, fun u hu => ?_⟩
          cases hu
          exact hpast
        | some found =>
          exact discover_congr agree hpast (terrain _ _ (level_of_unseen hunseen))
    · refine ⟨rfl, fun u hu => ?_⟩
      cases hu
      exact hpast

theorem survey_congr : s.survey rank t = s.survey rank' t ∧
    ∀ u, s.survey rank t = .ok u → Within P u := by
  fun_induction survey rank t s with
  | case1 s left fault hexamine =>
    obtain ⟨heq, -⟩ := examine_congr agree h terrain
    refine ⟨?_, fun u hu => by cases hu⟩
    rw [survey_of_left left, ← heq, hexamine]
    rfl
  | case2 s left u hexamine ih =>
    obtain ⟨heq, hnext⟩ := examine_congr agree h terrain
    obtain ⟨hrest, hwithin⟩ := ih (hnext u hexamine)
    refine ⟨?_, hwithin⟩
    rw [survey_of_left left, ← heq, hexamine, hrest]
    rfl
  | case3 s done =>
    refine ⟨(survey_of_done (by simpa using done)).symm, fun u hu => ?_⟩
    cases hu
    exact { h with }

theorem tick_congr : s.tick rank t = s.tick rank' t ∧
    ∀ u, s.tick rank t = .ok u → Within P u := by
  unfold tick
  cases s.phase with
  | survey => exact survey_congr agree h terrain
  | rise =>
    obtain ⟨heq, hwithin⟩ := rise_congr agree h
    exact ⟨congrArg Except.ok heq, fun u hu => Except.ok.inj hu ▸ hwithin⟩
  | close =>
    obtain ⟨heq, hwithin⟩ := close_congr agree h
    exact ⟨congrArg Except.ok heq, fun u hu => Except.ok.inj hu ▸ hwithin⟩
  | finished => exact ⟨rfl, fun u hu => Except.ok.inj hu ▸ h⟩
  | stranded => exact ⟨rfl, fun u hu => Except.ok.inj hu ▸ h⟩

theorem run_congr : s.run rank t = s.run rank' t := by
  fun_induction run rank t s with
  | case1 s ended => exact (run_of_ended ended).symm
  | case2 s going fault htick =>
    obtain ⟨heq, -⟩ := tick_congr agree h terrain
    rw [run_of_running (by simpa using going), ← heq, htick]
    rfl
  | case3 s going u htick ih =>
    obtain ⟨heq, hnext⟩ := tick_congr agree h terrain
    have running : s.ended = false := by simpa using going
    rw [ih (hnext u htick), run_of_running running, ← heq, htick]
    rfl

end State

/-- A flood starts with the levels of its terrain and the last one. -/
theorem within_start (terrain : ∀ p a, t.level? p = some a → P a) (last : P lastLevel)
    (hstart : State.start t lastLevel = .ok s) : Within P s := by
  have starts := starts_of_start hstart
  have hlevel : P s.level := terrain _ _ starts.accounted.level
  constructor
  case floor => exact starts.floor ▸ last
  case basins =>
    intro b hb
    rw [starts.basins] at hb
    exact List.mem_singleton.1 hb ▸ hlevel
  case level => exact hlevel
  case pool =>
    rw [starts.frontier]
    simp [Frontier.empty]

/-- Rankings that agree on the levels of a terrain and the last one make the same flood. -/
theorem run_congr (agree : AgreeOn P rank rank') (terrain : ∀ p a, t.level? p = some a → P a)
    (last : P lastLevel) (validate : Bool) :
    Flood.run t ⟨rank, validate⟩ lastLevel = Flood.run t ⟨rank', validate⟩ lastLevel := by
  unfold Flood.run
  split
  · rfl
  · rfl
  next s hstart =>
    dsimp only
    rw [State.run_congr agree (within_start terrain last hstart) terrain]

end Flood

end LevelTree
