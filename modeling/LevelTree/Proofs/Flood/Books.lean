import LevelTree.Proofs.Flood.Moves

/-!
# The books of a flood

The log of a flood runs to a ledger whose open regions are the stack of the flood, topmost first,
with the floor at the bottom. What a move logs changes the front of the ledger in the same way as the
stack (`Booked.create`, `Booked.arrive`, `Booked.settle_lt`, `Booked.settle_eq`).
-/

namespace LevelTree.Flood

variable {α : Type} {rank : Ranking α} {s u : State α} {l : Ledger Nat α} {n m : Nat}
  {h g : Holding α} {rest : List (Nat × Holding α)} {done : List (Holding α)} {level : α}

/-- The region of an entry, as it stands on the stack. -/
def basinOf (entry : Nat × Holding α) : Basin α := ⟨entry.1, entry.2.level⟩

/-- The log runs to the ledger, and the stack lists its open regions. -/
structure Booked (s : State α) (l : Ledger Nat α) : Prop where
  run : Ledger.empty.run s.log.toList = some l
  stack : l.holdings.map basinOf = s.basins ++ [⟨0, s.floor⟩]
  lt_nextName : ∀ n ∈ l.names, n < s.nextName

/-- The books stay as long as the log, the stack and the names do. -/
theorem Booked.congr (hb : Booked s l) (log : u.log = s.log) (basins : u.basins = s.basins)
    (floor : u.floor = s.floor) (nextName : u.nextName = s.nextName) : Booked u l where
  run := log ▸ hb.run
  stack := by rw [basins, floor, hb.stack]
  lt_nextName := nextName ▸ hb.lt_nextName

theorem Booked.nodup (hb : Booked s l) : l.names.Nodup := Ledger.nodup_names hb.run

theorem Booked.not_mem_tail (hb : Booked s ⟨(n, h) :: rest, done⟩) : n ∉ rest.map (·.1) :=
  (List.nodup_cons.1 hb.nodup).1

theorem Booked.top_eq (hb : Booked s ⟨(n, h) :: rest, done⟩) : s.top = ⟨n, h.level⟩ := by
  have hstack : ⟨n, h.level⟩ :: rest.map basinOf = s.basins ++ [⟨0, s.floor⟩] := hb.stack
  rw [State.top]
  cases hbasins : s.basins with
  | nil =>
    rw [hbasins] at hstack
    exact (List.cons.inj hstack).1.symm
  | cons b bs =>
    rw [hbasins] at hstack
    exact (List.cons.inj hstack).1.symm

/-- The topmost region is the floor, or a basin with another region beneath. -/
theorem Booked.floor_or_basin (hb : Booked s ⟨(n, h) :: rest, done⟩) :
    (s.basins = [] ∧ rest = [] ∧ n = 0 ∧ h.level = s.floor) ∨
      ∃ m g more bs, rest = (m, g) :: more ∧ s.basins = ⟨n, h.level⟩ :: bs ∧
        (m, g).2.level = (bs.headD ⟨0, s.floor⟩).level ∧ m = (bs.headD ⟨0, s.floor⟩).name ∧
        ((m, g) :: more).map basinOf = bs ++ [⟨0, s.floor⟩] := by
  have hstack : ⟨n, h.level⟩ :: rest.map basinOf = s.basins ++ [⟨0, s.floor⟩] := hb.stack
  cases hbasins : s.basins with
  | nil =>
    rw [hbasins, List.nil_append, List.cons.injEq, Basin.mk.injEq, List.map_eq_nil_iff] at hstack
    exact .inl ⟨rfl, hstack.2, hstack.1⟩
  | cons b bs =>
    rw [hbasins, List.cons_append, List.cons.injEq] at hstack
    obtain ⟨rfl, htail⟩ := hstack
    cases rest with
    | nil => simp at htail
    | cons e more =>
      refine .inr ⟨e.1, e.2, more, bs, rfl, rfl, ?_⟩
      cases bs with
      | nil =>
        have he := (List.cons.inj htail).1
        exact ⟨congrArg Basin.level he, congrArg Basin.name he, htail⟩
      | cons c cs =>
        have he := (List.cons.inj htail).1
        exact ⟨congrArg Basin.level he, congrArg Basin.name he, htail⟩

/-- The floor is the last region, so that nothing is beneath an entry of its name. -/
theorem eq_nil_of_zero {bs : List (Basin α)} {floor : α} (nodup : ((m, g) :: rest).map (·.1) |>.Nodup)
    (hm : m = 0) (hstack : ((m, g) :: rest).map basinOf = bs ++ [⟨0, floor⟩]) :
    rest = [] ∧ bs = [] := by
  cases bs with
  | nil =>
    rw [List.nil_append, List.map_cons, List.cons.injEq, List.map_eq_nil_iff] at hstack
    exact ⟨hstack.2, rfl⟩
  | cons b bs =>
    rw [List.cons_append, List.map_cons, List.cons.injEq] at hstack
    have hnames : rest.map (·.1) = bs.map (·.name) ++ [0] := by
      simpa [basinOf, Function.comp_def] using congrArg (List.map (·.name)) hstack.2
    rw [List.map_cons, List.nodup_cons, hnames] at nodup
    exact absurd (by simp [hm]) nodup.1

/-! ## Entries -/

/-- A new basin is a new region in front. -/
theorem Booked.create (hb : Booked s l) (hlog : u.log = s.log.push (.create s.nextName level))
    (hbasins : u.basins = ⟨s.nextName, level⟩ :: s.basins) (hfloor : u.floor = s.floor)
    (hnext : u.nextName = s.nextName + 1) :
    Booked u ⟨(s.nextName, .ofLevel level) :: l.holdings, l.complete⟩ := by
  have hnew : s.nextName ∉ l.names := fun hn => Nat.lt_irrefl _ (hb.lt_nextName _ hn)
  constructor
  case run =>
    rw [hlog, Array.toList_push, Ledger.run_concat hb.run]
    exact Ledger.apply_create hnew
  case stack =>
    rw [List.map_cons, hb.stack, hbasins, hfloor]
    rfl
  case lt_nextName =>
    intro n hn
    rw [hnext]
    rcases List.mem_cons.1 hn with rfl | hn
    · exact Nat.lt_succ_self _
    · exact Nat.lt_succ_of_lt (hb.lt_nextName n hn)

/-- The position that is added is one more in the topmost region. -/
theorem Booked.arrive (hb : Booked s ⟨(n, h) :: rest, done⟩) :
    Booked s.arrive ⟨(n, h.add s.position) :: rest, done⟩ := by
  constructor
  case run =>
    rw [State.log_arrive, hb.top_eq, Array.toList_push, Ledger.run_concat hb.run]
    exact Ledger.apply_add_head hb.not_mem_tail
  case stack => exact hb.stack
  case lt_nextName => exact hb.lt_nextName

/-! ## Settling -/

theorem run_settleAt (hb : Booked s l) : Ledger.empty.run (s.settleAt rank level).log.toList =
    l.run (settle rank s.floor level s.basins).events := by
  rw [State.log_settleAt, Array.toList_appendList, Ledger.run_append, hb.run]
  rfl

theorem phase_settleAt : (s.settleAt rank level).phase =
    if (settle rank s.floor level s.basins).stranded then .stranded else s.phase := rfl

/-- The region beneath lies above the level: the topmost region is emitted and raised to it. -/
theorem Booked.settle_lt (hb : Booked s ⟨(n, h) :: (m, g) :: rest, done⟩)
    (hrank : rank level g.level = .lt) : (s.settleAt rank level).phase = s.phase ∧
      Booked (s.settleAt rank level)
        ⟨(n, h.settled.raise level) :: (m, g) :: rest, done ++ [h]⟩ := by
  obtain ⟨-, hnil, -⟩ | ⟨m', g', more, bs, heq, hbasins, hlevel, -, hstack⟩ := hb.floor_or_basin
  · simp at hnil
  simp only [List.cons.injEq, Prod.mk.injEq] at heq
  obtain ⟨⟨rfl, rfl⟩, rfl⟩ := heq
  have hsettle : settle rank s.floor level s.basins =
      ⟨[.emit n, .raise n level], ⟨n, level⟩ :: bs, false⟩ := by
    rw [hbasins, settle]
    simp only [← hlevel, hrank]
  refine ⟨by simp [phase_settleAt, hsettle], ?_, ?_, hb.lt_nextName⟩
  · rw [run_settleAt hb, hsettle, Ledger.run_cons, Ledger.apply_emit_head hb.not_mem_tail,
      Option.bind_some, Ledger.run_cons, Ledger.apply_raise_head hb.not_mem_tail]
    rfl
  · simp only [State.settleAt, hsettle]
    rw [List.map_cons, hstack]
    rfl

/-- The region beneath is at the level: the topmost region is emitted and merged into it. -/
theorem Booked.settle_eq (hb : Booked s ⟨(n, h) :: (m, g) :: rest, done⟩)
    (hrank : rank level g.level = .eq) : (s.settleAt rank level).phase = s.phase ∧
      Booked (s.settleAt rank level) ⟨(m, g.merge h.settled) :: rest, done ++ [h]⟩ := by
  obtain ⟨-, hnil, -⟩ | ⟨m', g', more, bs, heq, hbasins, hlevel, hname, hstack⟩ := hb.floor_or_basin
  · simp at hnil
  simp only [List.cons.injEq, Prod.mk.injEq] at heq
  obtain ⟨⟨rfl, rfl⟩, rfl⟩ := heq
  have hsettle : settle rank s.floor level s.basins = ⟨[.emit n, .merge m n], bs, false⟩ := by
    rw [hbasins, settle]
    simp only [← hlevel, hrank, ← hname]
  refine ⟨by simp [phase_settleAt, hsettle], ?_, ?_, fun k hk => ?_⟩
  · rw [run_settleAt hb, hsettle, Ledger.run_cons, Ledger.apply_emit_head hb.not_mem_tail,
      Option.bind_some, Ledger.run_cons,
      Ledger.apply_merge_head hb.not_mem_tail (List.nodup_cons.1 (List.nodup_cons.1 hb.nodup).2).1]
    rfl
  · simp only [State.settleAt, hsettle]
    exact hstack
  · exact hb.lt_nextName k (List.mem_cons_of_mem _ hk)

/-- The level lies above the floor, which is beneath the only basin: that is emitted and merged, and
the flood is stranded. -/
theorem Booked.settle_gt (hb : Booked s ⟨[(n, h), (0, g)], done⟩)
    (hrank : rank level g.level = .gt) : (s.settleAt rank level).phase = .stranded ∧
      Ledger.empty.run (s.settleAt rank level).log.toList =
        some ⟨[(0, g.merge h.settled)], done ++ [h]⟩ := by
  obtain ⟨-, hnil, -⟩ | ⟨m', g', more, bs, heq, hbasins, hlevel, hname, hstack⟩ := hb.floor_or_basin
  · simp at hnil
  simp only [List.cons.injEq, Prod.mk.injEq] at heq
  obtain ⟨⟨rfl, rfl⟩, rfl⟩ := heq
  obtain rfl : bs = [] := (eq_nil_of_zero (by simp) rfl hstack).2
  have hsettle : settle rank s.floor level s.basins = ⟨[.emit n, .merge 0 n], [], true⟩ := by
    rw [hbasins, settle]
    simp only [← hlevel, hrank, ← hname, settle]
  refine ⟨by simp [phase_settleAt, hsettle], ?_⟩
  rw [run_settleAt hb, hsettle, Ledger.run_cons, Ledger.apply_emit_head hb.not_mem_tail,
    Option.bind_some, Ledger.run_cons, Ledger.apply_merge_head hb.not_mem_tail (by simp)]
  rfl

/-- Only the floor is left, and cannot be settled. -/
theorem Booked.settle_floor (rank : Ranking α) (level : α) (hb : Booked s l)
    (hbasins : s.basins = []) : (s.settleAt rank level).phase = .stranded ∧
      Ledger.empty.run (s.settleAt rank level).log.toList = some l := by
  have hsettle : settle rank s.floor level s.basins = ⟨[], [], true⟩ := by
    rw [hbasins, settle]
  refine ⟨by simp [phase_settleAt, hsettle], ?_⟩
  rw [run_settleAt hb, hsettle, Ledger.run_nil]

end LevelTree.Flood
