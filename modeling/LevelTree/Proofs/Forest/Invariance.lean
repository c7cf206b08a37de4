import LevelTree.Proofs.Flood.Parallel
import LevelTree.Proofs.Forest.Completeness

/-!
# Forests that are the same but for their levels

Floods that emit the same positions in the same order make forests that agree in everything but the
levels, since the places of the nodes follow from the positions they have (`Carried.echoes`). So the
floor does not show in a forest, as long as no position lies above it, and it shows in the counts of a
flood in one merge only (`floor_independence`).
-/

namespace LevelTree

open Flood
open List (Forall₂)

variable {α β : Type} {R : α → β → Prop} {rank : Ranking α} {rank' : Ranking β} {t : Terrain α}
  {t' : Terrain β} {lastLevel : α} {lastLevel' : β} {i j c : Nat} {p : Position}

/-- The nodes have the same positions and the same places, at related levels. -/
structure Node.Echoes (R : α → β → Prop) (n : Node α) (m : Node β) : Prop where
  level : R n.level m.level
  own : n.own = m.own
  size : n.size = m.size
  parent : n.parent = m.parent
  children : ∀ c, c ∈ n.children ↔ c ∈ m.children

/-- The forests have as many nodes, which correspond at each index. -/
structure Forest.Echoes (R : α → β → Prop) (f : Forest α) (g : Forest β) : Prop where
  size : f.size = g.size
  node : ∀ i < f.size, ∃ n m, f.node i = .ok n ∧ g.node i = .ok m ∧ n.Echoes R m

/-- The level of a position that no position lies above. -/
structure Terrain.Highest (t : Terrain α) (rank : Ranking α) (a : α) : Prop where
  reached : ∃ p, t.At p a
  above : ∀ p b, t.At p b → rank b a ≠ .gt

namespace Forest

variable {l : Ledger Nat α} {m : Ledger Nat β} {b : Assembly Nat α} {b' : Assembly Nat β}

/-! ## Nodes -/

theorem Echoes.mono {S : α → β → Prop} {f : Forest α} {g : Forest β} (h : f.Echoes R g)
    (hRS : ∀ a b, R a b → S a b) : f.Echoes S g where
  size := h.size
  node := fun i hi => by
    obtain ⟨n, m, hn, hm, hnm⟩ := h.node i hi
    exact ⟨n, m, hn, hm, { hnm with level := hRS _ _ hnm.level }⟩

namespace Carried

section Pair

variable (hc : Carried t rank l b) (hc' : Carried t' rank' m b')
  (complete : Forall₂ (LevelTree.Echoes R) l.complete m.complete)

include hc hc' complete

theorem size_eq : b.forest.size = b'.forest.size := by
  rw [hc.replayed.size, hc'.replayed.size, complete.length_eq]

theorem exists_nodes (hi : i < b.forest.size) : ∃ h k n n', Keeps b.forest i h n ∧
    Keeps b'.forest i k n' ∧ LevelTree.Echoes R h k := by
  have hi' : i < b'.forest.size := hc.size_eq hc' complete ▸ hi
  obtain ⟨h, n, hh, -, keeps⟩ := hc.exists_node hi
  obtain ⟨k, n', hk, -, keeps'⟩ := hc'.exists_node hi'
  obtain ⟨hlt, rfl⟩ := List.getElem?_eq_some_iff.1 hh
  obtain ⟨hlt', rfl⟩ := List.getElem?_eq_some_iff.1 hk
  exact ⟨_, _, n, n', keeps, keeps', (List.forall₂_iff_get.1 complete).2 i hlt hlt'⟩

/-- Nodes of the same index have the same positions. -/
theorem has_iff_has : b.forest.Has i p ↔ b'.forest.Has i p := by
  rcases Nat.lt_or_ge i b.forest.size with hi | hi
  · obtain ⟨h, k, n, n', keeps, keeps', hecho⟩ := hc.exists_nodes hc' complete hi
    rw [has_iff_held keeps, has_iff_held keeps', hecho.held]
  · have hi' : b'.forest.size ≤ i := hc.size_eq hc' complete ▸ hi
    exact iff_of_false (fun h => Nat.not_lt_of_ge hi h.lt) fun h => Nat.not_lt_of_ge hi' h.lt

/-- The parent of a node is known from the positions of the nodes. -/
theorem parent_eq (order : TotalPreorder rank) (order' : TotalPreorder rank') {n : Node α}
    {n' : Node β} (hn : b.forest.node i = .ok n) (hn' : b'.forest.node i = .ok n') :
    n.parent = n'.parent := by
  refine Option.ext fun j => ?_
  rw [(hc.isComponentTree order).parent i n hn, (hc'.isComponentTree order').parent i n' hn']
  simp only [Encloses, hc.has_iff_has hc' complete]

/-- The children of a node are known from the parents. -/
theorem mem_children_iff (order : TotalPreorder rank) (order' : TotalPreorder rank') :
    c ∈ b.forest.childrenAt i ↔ c ∈ b'.forest.childrenAt i := by
  rcases Nat.lt_or_ge c b.forest.size with hlt | hge
  · obtain ⟨h, k, n, n', keeps, keeps', -⟩ := hc.exists_nodes hc' complete hlt
    rw [← hc.linked.rooted c n keeps.get, ← hc'.linked.rooted c n' keeps'.get,
      hc.parent_eq hc' complete order order' (node_eq_ok.2 keeps.get) (node_eq_ok.2 keeps'.get)]
  · have hge' : b'.forest.size ≤ c := hc.size_eq hc' complete ▸ hge
    refine iff_of_false (fun hmem => ?_) fun hmem => ?_
    · have hlt := lt_of_mem_childrenAt hmem
      omega
    · have hlt := lt_of_mem_childrenAt hmem
      omega

/-- Floods that emit the same regions make the same forests, up to related levels. -/
theorem echoes (order : TotalPreorder rank) (order' : TotalPreorder rank') :
    b.forest.Echoes R b'.forest where
  size := hc.size_eq hc' complete
  node := fun i hi => by
    obtain ⟨h, k, n, n', keeps, keeps', hecho⟩ := hc.exists_nodes hc' complete hi
    have hn := node_eq_ok.2 keeps.get
    have hn' := node_eq_ok.2 keeps'.get
    refine ⟨n, n', hn, hn', ?_⟩
    constructor
    case level => rw [keeps.level, keeps'.level]; exact hecho.level
    case own => rw [keeps.own, keeps'.own, hecho.fresh]
    case size => rw [keeps.size, keeps'.size, hecho.held]
    case parent => exact hc.parent_eq hc' complete order order' hn hn'
    case children =>
      intro c
      rw [← childrenAt_eq keeps.get, ← childrenAt_eq keeps'.get]
      exact hc.mem_children_iff hc' complete order order'

end Pair

end Carried

/-! ## Floods that end -/

section Whole

variable {u : State α} (ends : Ends rank t lastLevel u l) (flood : t.Floodable)
  (whole : ∀ p, Extents.Inside t.sides p → (t.level? p).isSome)

include ends flood whole

/-- A flood of a whole terrain answers with its counts when it has come to its end. -/
theorem run_of_ends (validate : Bool) :
    Flood.run t ⟨rank, validate⟩ lastLevel = .ok ⟨u.log, .ok u.tally⟩ := by
  rw [ends.run, result_eq flood whole ends.accounted ends.phase]

/-- The forest of a flood that came to its end, if there is room for its nodes. -/
theorem build_of_ends (fits : t.Fits) :
    (l.complete.length ≤ nodeLimit →
      ∃ b, buildWith t rank lastLevel = .ok b.forest ∧ Carried t rank l b) ∧
      (nodeLimit < l.complete.length →
        buildWith t rank lastLevel = .error (.fault (.nodeLimit nodeLimit))) :=
  build_of_finished flood whole ends.accounted ends.phase ends.finished fits
    (run_of_ends ends flood whole true)

/-- The region that was emitted last is level with the highest positions. -/
theorem exists_last (order : TotalPreorder rank) : ∃ g, l.complete.getLast? = some g ∧
    (∃ a, t.Highest rank a) ∧ ∀ a, t.Highest rank a → rank a g.level = .eq := by
  obtain ⟨g, hlast, hheld, -⟩ := ends.finished.whole
  have complete := ends.finished.complete g (List.mem_of_getLast? hlast)
  have hle : ∀ p a, t.At p a → rank a g.level ≠ .gt := fun p a ha => by
    have hadded : p ∈ u.added :=
      (ends.accounted.mem_added_iff ends.phase).2 ((reachable_iff_inside flood whole).2 ha.1)
    have hg : p ∈ g.held := hheld ▸ (Ledger.held_perm ends.finished.run).mem_iff.2 hadded
    exact ha.upTo_iff.1 (complete.component.mem hg)
  obtain ⟨q, hq⟩ := List.exists_mem_of_ne_nil _ complete.recent
  obtain ⟨-, b, hb, heq⟩ := (complete.fresh q).1 hq
  refine ⟨g, hlast, ⟨b, ⟨q, hb⟩, fun p a ha => ?_⟩, fun a ha => ?_⟩
  · exact order.le_of_le_of_eq (hle p a ha) (order.eq_symm heq)
  · obtain ⟨p, hp⟩ := ha.reached
    exact order.eq_of_le_of_le (hle p a hp)
      (order.le_of_eq_of_le (order.eq_symm heq) (ha.above q b hb))

/-- The floor is left open by a flood whose highest positions lie below it. -/
theorem length_holdings_of_ends (order : TotalPreorder rank) {a : α} (highest : t.Highest rank a) :
    l.holdings.length = if rank a lastLevel = .eq then 1 else 2 := by
  obtain ⟨g, hlast, -, hlevel⟩ := exists_last ends flood whole order
  rw [ends.left g hlast, order.congr_left (hlevel a highest)]

end Whole

/-- Two forests of as many nodes, which are the same but for their levels, or two failures where there
are too many nodes to be told apart. -/
structure BuiltAlike (R : α → β → Prop) (size : Nat) (built : Except Failure (Forest α))
    (built' : Except Failure (Forest β)) : Prop where
  few : size ≤ nodeLimit → ∃ f g, built = .ok f ∧ built' = .ok g ∧ f.size = size ∧ f.Echoes R g
  many : nodeLimit < size → built = .error (.fault (.nodeLimit nodeLimit)) ∧
    built' = .error (.fault (.nodeLimit nodeLimit))

theorem BuiltAlike.mono {S : α → β → Prop} {size : Nat} {built : Except Failure (Forest α)}
    {built' : Except Failure (Forest β)} (h : BuiltAlike R size built built')
    (hRS : ∀ a b, R a b → S a b) : BuiltAlike S size built built' where
  few := fun room => by
    obtain ⟨f, g, hf, hg, hsize, hfg⟩ := h.few room
    exact ⟨f, g, hf, hg, hsize, hfg.mono hRS⟩
  many := h.many

section Pair

variable {v : State α} {w : State β} (order : TotalPreorder rank) (order' : TotalPreorder rank')
  (flood : t.Floodable) (flood' : t'.Floodable) (fits : t.Fits) (fits' : t'.Fits)
  (whole : ∀ p, Extents.Inside t.sides p → (t.level? p).isSome)
  (whole' : ∀ p, Extents.Inside t'.sides p → (t'.level? p).isSome)

include order order' flood flood' fits fits' whole whole'

/-- Floods with the same regions make forests that are the same but for their levels. -/
theorem builtAlike_of_twins (ends : Ends rank t lastLevel v l) (ends' : Ends rank' t' lastLevel' w m)
    (twins : Twins R rank rank' v w l m) :
    BuiltAlike (Through R rank rank') v.tally.emitted (buildWith t rank lastLevel)
      (buildWith t' rank' lastLevel') := by
  have hlength := twins.complete.length_eq
  obtain ⟨hfew, hmany⟩ := build_of_ends ends flood whole fits
  obtain ⟨hfew', hmany'⟩ := build_of_ends ends' flood' whole' fits'
  rw [emitted_eq ends.finished.toLogged]
  constructor
  case few =>
    intro room
    obtain ⟨b, hb, hc⟩ := hfew room
    obtain ⟨b', hb', hc'⟩ := hfew' (hlength ▸ room)
    exact ⟨b.forest, b'.forest, hb, hb', hc.replayed.size, hc.echoes hc' twins.complete order order'⟩
  case many =>
    intro more
    exact ⟨hmany more, hmany' (hlength ▸ more)⟩

/-- Two terrains of one shape, with related levels, make forests that are the same but for their
levels, whatever the floors are. -/
theorem exists_builtAlike (agree : Agree R rank rank') (terrain : t.Echoes R t')
    (below : ¬ t.Exceeds rank lastLevel) (below' : ¬ t'.Exceeds rank' lastLevel') :
    ∃ log tally, Flood.run t (.ofRanking rank) lastLevel = .ok ⟨log, .ok tally⟩ ∧
      tally.emitted ≤ Word.plainProduct t.sides ∧
      BuiltAlike (Through R rank rank') tally.emitted (buildWith t rank lastLevel)
        (buildWith t' rank' lastLevel') := by
  obtain ⟨v, w, l, m, ends, ends', twins⟩ :=
    exists_twins order order' agree terrain flood flood' fits fits' below below'
  exact ⟨v.log, v.tally, run_of_ends ends flood whole true, emitted_le ends.finished.toLogged,
    builtAlike_of_twins order order' flood flood' fits fits' whole whole' ends ends' twins⟩

end Pair

/-- The floors of two floods of a terrain without holes, if no level ranks after them, do not show in
the forests or in the counts of positions, regions and waiting positions. A floor at the highest level
of the terrain takes one merge more than a floor above it. -/
theorem floor_independence (t : Terrain α) (flood : t.Floodable) (fits : t.Fits)
    (whole : ∀ p, Extents.Inside t.sides p → (t.level? p).isSome) (rank : Ranking α)
    (order : TotalPreorder rank) (floor floor' : α) (below : ∀ p a, t.At p a → rank a floor ≠ .gt)
    (below' : ∀ p a, t.At p a → rank a floor' ≠ .gt) :
    ∃ log log' tally tally',
      (∀ validate, Flood.run t ⟨rank, validate⟩ floor = .ok ⟨log, .ok tally⟩) ∧
      (∀ validate, Flood.run t ⟨rank, validate⟩ floor' = .ok ⟨log', .ok tally'⟩) ∧
      tally.added = tally'.added ∧ tally.emitted = tally'.emitted ∧ tally.peak = tally'.peak ∧
      tally.emitted ≤ Word.plainProduct t.sides ∧ (∃ a, t.Highest rank a) ∧
      (∀ a, t.Highest rank a →
        (rank a floor = rank a floor' → tally.merged = tally'.merged) ∧
        (rank a floor = .eq → rank a floor' = .lt → tally.merged = tally'.merged + 1)) ∧
      BuiltAlike (fun a b => rank a b = .eq) tally.emitted (buildWith t rank floor)
        (buildWith t rank floor') := by
  have agree : Agree Eq rank rank := by
    rintro a b _ _ rfl rfl
    rfl
  have terrain : t.Echoes Eq t := ⟨rfl, fun p => by cases t.level? p <;> constructor; rfl⟩
  have hbelow : ¬ t.Exceeds rank floor := fun ⟨p, a, _, ha, hgt⟩ => below p a ha hgt
  have hbelow' : ¬ t.Exceeds rank floor' := fun ⟨p, a, _, ha, hgt⟩ => below' p a ha hgt
  obtain ⟨v, w, l, m, ends, ends', twins⟩ :=
    exists_twins order order agree terrain flood flood fits fits hbelow hbelow'
  have halike := builtAlike_of_twins order order flood flood fits fits whole whole ends ends' twins
  obtain ⟨g, -, hhighest, -⟩ := exists_last ends flood whole order
  refine ⟨v.log, w.log, v.tally, w.tally, run_of_ends ends flood whole,
    run_of_ends ends' flood whole, ?_, ?_, twins.peak, emitted_le ends.finished.toLogged, hhighest,
    fun a ha => ?_, ?_⟩
  · rw [tally_added, tally_added, ← ends.accounted.ncard_reachable ends.phase,
      ← ends'.accounted.ncard_reachable ends'.phase]
  · rw [emitted_eq ends.finished.toLogged, emitted_eq ends'.finished.toLogged,
      twins.complete.length_eq]
  · -- both floods used as many names, so the merges differ by what is left open
    have hmerged := ends.merged
    have hmerged' := ends'.merged
    rw [length_holdings_of_ends ends flood whole order ha, twins.nextName] at hmerged
    rw [length_holdings_of_ends ends' flood whole order ha] at hmerged'
    constructor
    · intro heq
      rw [heq] at hmerged
      omega
    · intro heq hlt
      rw [if_pos heq] at hmerged
      rw [if_neg (by rw [hlt]; decide)] at hmerged'
      omega
  · refine halike.mono fun a d => ?_
    rintro ⟨b, _, hab, rfl, hbd⟩
    exact order.eq_trans hab hbd

/-- A row of three cells with the lowest one in its middle. -/
def dip : Terrain Nat := ⟨[3], [0], fun p => if p = [1] then some 2 else some 5⟩

/-- The flood of the dip starts at the highest level, and a floor there is merged with what starts on
it. -/
theorem floor_independence_dip : dip.Floodable ∧ dip.Fits ∧
    (∀ p, Extents.Inside dip.sides p → (dip.level? p).isSome) ∧
    TotalPreorder (Ranking.ofKey Int.ofNat) ∧
    (∀ p a, dip.At p a → Ranking.ofKey Int.ofNat a 5 ≠ .gt) ∧
    (∀ p a, dip.At p a → Ranking.ofKey Int.ofNat a 9 ≠ .gt) ∧
    dip.Highest (.ofKey Int.ofNat) 5 ∧
    (∃ log log' tally tally', Flood.run dip (.ofRanking (.ofKey Int.ofNat)) 5 = .ok ⟨log, .ok tally⟩ ∧
      Flood.run dip (.ofRanking (.ofKey Int.ofNat)) 9 = .ok ⟨log', .ok tally'⟩ ∧
      tally.merged = tally'.merged + 1) ∧
    ∃ f g, buildWith dip (.ofKey Int.ofNat) 5 = .ok f ∧ buildWith dip (.ofKey Int.ofNat) 9 = .ok g ∧
      f.Echoes (fun a b => Ranking.ofKey Int.ofNat a b = .eq) g := by
  have flood : dip.Floodable := ⟨by decide, by decide, by decide, by decide⟩
  have fits : dip.Fits := ⟨by decide, by decide⟩
  have whole : ∀ p, Extents.Inside dip.sides p → (dip.level? p).isSome := by
    intro p _
    simp only [dip]
    split <;> rfl
  have low : ∀ p a, dip.At p a → a = 2 ∨ a = 5 := by
    rintro p a ⟨-, hlevel⟩
    simp only [dip] at hlevel
    split at hlevel <;> cases hlevel <;> decide
  have below : ∀ p a, dip.At p a → Ranking.ofKey Int.ofNat a 5 ≠ .gt := by
    intro p a ha
    rcases low p a ha with rfl | rfl <;> decide
  have below' : ∀ p a, dip.At p a → Ranking.ofKey Int.ofNat a 9 ≠ .gt := by
    intro p a ha
    rcases low p a ha with rfl | rfl <;> decide
  have highest : dip.Highest (.ofKey Int.ofNat) 5 := ⟨⟨[0], ⟨by decide, trivial⟩, rfl⟩, below⟩
  obtain ⟨log, log', tally, tally', hrun, hrun', -, -, -, hfew, -, hmerged, halike⟩ :=
    floor_independence dip flood fits whole (.ofKey Int.ofNat) (.ofKey _) 5 9 below below'
  obtain ⟨f, g, hf, hg, -, hfg⟩ := halike.few (hfew.trans (by decide))
  exact ⟨flood, fits, whole, .ofKey _, below, below', highest,
    ⟨log, log', tally, tally', hrun true, hrun' true, (hmerged 5 highest).2 rfl rfl⟩,
    f, g, hf, hg, hfg⟩

/-- No floor makes a forest of a comb with one low cell more than there are indices of nodes, or of a
cell without dimensions. -/
theorem floor_independence_crowded :
    let rank : Ranking Nat := .ofKey Int.ofNat
    let comb := Terrain.ofGrid (Grid.comb nodeLimit (by decide) 0 1)
    let dot := Terrain.ofGrid (Grid.dot 5)
    TotalPreorder rank ∧
    (comb.Floodable ∧ comb.Fits ∧ (∀ p, Extents.Inside comb.sides p → (comb.level? p).isSome) ∧
      (∀ p a, comb.At p a → rank a 1 ≠ .gt ∧ rank a 2 ≠ .gt) ∧
      buildWith comb rank 1 = .error (.fault (.nodeLimit nodeLimit)) ∧
      buildWith comb rank 2 = .error (.fault (.nodeLimit nodeLimit))) ∧
    ((∀ c ∈ dot.corner, c = 0) ∧ 0 ∉ dot.sides ∧ dot.Fits ∧
      (∀ p, Extents.Inside dot.sides p → (dot.level? p).isSome) ∧
      (∀ p a, dot.At p a → rank a 7 ≠ .gt ∧ rank a 9 ≠ .gt) ∧
      buildWith dot rank 7 = .error .nothingToFlood ∧
      buildWith dot rank 9 = .error .nothingToFlood) := by
  intro rank comb dot
  have order : TotalPreorder rank := .ofKey _
  refine ⟨order, ?comb, ?dot⟩
  case comb =>
    refine ⟨Terrain.floodable_comb _, Terrain.fits_comb _, Terrain.whole_comb _,
      fun p a ha => ⟨?_, ?_⟩, ?_, ?_⟩
    · exact Terrain.below_comb _ order rfl (by decide) p a ha
    · exact Terrain.below_comb _ order rfl (by decide) p a ha
    · exact buildWith_comb order rfl (by decide) (Nat.le_refl _)
    · exact buildWith_comb order rfl (by decide) (Nat.le_refl _)
  case dot =>
    refine ⟨by decide, by decide, Terrain.fits_dot, Terrain.whole_dot, fun p a ha => ?_,
      buildWith_dot 5, buildWith_dot 5⟩
    rw [Terrain.eq_of_at_dot ha]
    decide

end Forest

end LevelTree
