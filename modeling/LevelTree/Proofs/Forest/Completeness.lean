import LevelTree.Proofs.Cells
import LevelTree.Proofs.Forest.Soundness
import LevelTree.Proofs.Terrain

/-!
# The tree of level components

A terrain without holes, none of whose levels ranks after the last one, makes a tree: each position
has its component at its level among the nodes, once; the parent of a node is the smallest one around
it; and the last node, which has all positions, is the only one without a parent (`completeness`).
Components at two levels are nested or apart, and the own positions of the nodes are a partition; the
places of the nodes in the forest follow from these two facts. A terrain with more components than there
are indices of nodes makes no tree (`buildWith_scattered`).
-/

namespace LevelTree.Forest

open Flood

variable {α : Type} {rank : Ranking α} {t : Terrain α} {u : State α} {l : Ledger Nat α}
  {f : Forest α} {b : Assembly Nat α} {settings : Settings α} {lastLevel : α} {c i j k : Nat}
  {p q : Position} {g h : Holding α}

/-- The node with an index has the position. -/
def Has (f : Forest α) (i : Nat) (p : Position) : Prop :=
  ∃ members, f.positions i = .ok members ∧ p ∈ members

/-- The node `j` has all positions of the node `i`, and more. -/
def Encloses (f : Forest α) (j i : Nat) : Prop :=
  (∀ p, f.Has i p → f.Has j p) ∧ ∃ p, f.Has j p ∧ ¬ f.Has i p

/-- The nodes are the components of the positions at their levels, under the smallest node that
encloses them, and the last node is around all. -/
structure IsComponentTree (t : Terrain α) (rank : Ranking α) (f : Forest α) : Prop where
  component : ∀ p a, t.At p a → ∃! i, i < f.size ∧ ∀ q, f.Has i q ↔ Joined (t.UpTo rank a) p q
  injective : ∀ i j, i < f.size → j < f.size → (∀ p, f.Has i p ↔ f.Has j p) → i = j
  parent : ∀ i n, f.node i = .ok n → ∀ j, n.parent = some j ↔
    f.Encloses j i ∧ ∀ k, f.Encloses k i → ∀ p, f.Has j p → f.Has k p
  root : ∀ i n, f.node i = .ok n → (n.parent = none ↔ i + 1 = f.size)
  nonempty : 0 < f.size
  whole : ∀ p, f.Has (f.size - 1) p ↔ Extents.Inside t.sides p

/-- An assembly that carried out a finished flood of a whole terrain. -/
structure Carried (t : Terrain α) (rank : Ranking α) (l : Ledger Nat α) (b : Assembly Nat α) :
    Prop where
  replayed : Matches t.sides.length l b
  linked : Linked b
  complete : ∀ h ∈ l.complete, Complete t rank h
  held : l.held.Perm (Extents.cells t.sides)
  fresh : l.fresh.Perm (Extents.cells t.sides)
  settled : ∀ e ∈ l.holdings, e.2.fresh = []
  last : ∃ g, l.complete.getLast? = some g ∧ l.held = g.held

/-! ## Building -/

/-- The built forest is the replay of the log. -/
theorem buildWith_eq {log : Array (Event Nat α)} {tally : Tally}
    (hflood : Flood.run t (.ofRanking rank) lastLevel = .ok ⟨log, .ok tally⟩)
    (hreplay : (Assembly.ofForest (.empty t.sides)).replay log.toList = .ok b) :
    buildWith t rank lastLevel = .ok b.forest := by
  simp [buildWith, grow_eq hflood hreplay, bind, Except.bind, pure, Except.pure, liftM, monadLift,
    MonadLift.monadLift]

/-- No forest is built where the replay of the log fails. -/
theorem buildWith_full {log : Array (Event Nat α)} {tally : Tally} {fault : Fault}
    (hflood : Flood.run t (.ofRanking rank) lastLevel = .ok ⟨log, .ok tally⟩)
    (hreplay : (Assembly.ofForest (.empty t.sides)).replay log.toList = .error fault) :
    buildWith t rank lastLevel = .error (.fault fault) := by
  simp [buildWith, grow, hflood, hreplay, bind, Except.bind, liftM, monadLift,
    MonadLift.monadLift]

/-! ## Positions of nodes -/

theorem has_iff : f.Has i p ↔ p ∈ f.listingAt i := by
  rcases Nat.lt_or_ge i f.size with hi | hi
  · simp [Has, positions_eq hi]
  · have hnot : ¬ i < f.nodes.size := Nat.not_lt_of_ge hi
    simp [Has, positions, listingAt, hnot]

theorem Has.lt (h : f.Has i p) : i < f.size := by
  by_contra hi
  have hnot : ¬ i < f.nodes.size := hi
  rw [has_iff, listingAt, dif_neg hnot] at h
  simp at h

theorem has_iff_held {n : Node α} (keeps : Keeps f i h n) : f.Has i p ↔ p ∈ h.held := by
  rw [has_iff, keeps.listing.mem_iff]

/-- Lists that are joined without repetitions have nothing in common. -/
theorem eq_of_mem_flatMap {β : Type} {xs : List β} {lists : β → List Position} {x y : β}
    (nodup : (xs.flatMap lists).Nodup) (hx : xs[i]? = some x) (hy : xs[j]? = some y)
    (hpx : p ∈ lists x) (hpy : p ∈ lists y) : i = j := by
  have apart := List.pairwise_iff_getElem.1 (List.nodup_flatMap.1 nodup).2
  obtain ⟨hi, rfl⟩ := List.getElem?_eq_some_iff.1 hx
  obtain ⟨hj, rfl⟩ := List.getElem?_eq_some_iff.1 hy
  rcases Nat.lt_trichotomy i j with hlt | heq | hlt
  · exact (apart i j hi hj hlt hpx hpy).elim
  · exact heq
  · exact (apart j i hj hi hlt hpy hpx).elim

theorem eq_of_mem_listings {is : List Nat} (nodup : (is.flatMap f.listingAt).Nodup) (hi : i ∈ is)
    (hj : j ∈ is) (hpi : f.Has i p) (hpj : f.Has j p) : i = j := by
  obtain ⟨m, hm⟩ := List.mem_iff_getElem?.1 hi
  obtain ⟨n, hn⟩ := List.mem_iff_getElem?.1 hj
  obtain rfl := eq_of_mem_flatMap nodup hm hn (has_iff.1 hpi) (has_iff.1 hpj)
  exact Option.some.inj (hm.symm.trans hn)

/-! ## Nested components -/

/-- Where two components meet, the one at the lower level lies in the other. -/
theorem nested (order : TotalPreorder rank) (hg : Complete t rank g) (hh : Complete t rank h)
    (hle : rank g.level h.level ≠ .gt) (hpg : p ∈ g.held) (hph : p ∈ h.held) :
    ∀ q ∈ g.held, q ∈ h.held := fun _ hq =>
  hg.component.subset_of_mem hh.component (fun _ hr => hr.mono order hle) hpg hph hq

/-- A component with a position that lies level with another one does not lie below that. -/
theorem level_le (order : TotalPreorder rank) (hg : Complete t rank g) (hh : Complete t rank h)
    (hpg : p ∈ g.fresh) (hph : p ∈ h.held) : rank g.level h.level ≠ .gt := by
  obtain ⟨-, a, ha, heq⟩ := (hg.fresh p).1 hpg
  exact order.le_of_eq_of_le (order.eq_symm heq) (ha.upTo_iff.1 (hh.component.mem hph))

/-- A position that lies level with a component is fresh in all components of that level. -/
theorem fresh_of_level (order : TotalPreorder rank) (hg : Complete t rank g)
    (hh : Complete t rank h) (heq : rank g.level h.level = .eq) (hpg : p ∈ g.fresh)
    (hph : p ∈ h.held) : p ∈ h.fresh := by
  obtain ⟨-, a, ha, ha'⟩ := (hg.fresh p).1 hpg
  exact (hh.fresh p).2 ⟨hph, a, ha, order.eq_trans ha' heq⟩

namespace Carried

variable (hc : Carried t rank l b)

include hc

/-! ## Nodes and emissions -/

theorem exists_node (hi : i < b.forest.size) :
    ∃ h n, l.complete[i]? = some h ∧ Complete t rank h ∧ Keeps b.forest i h n := by
  rw [hc.replayed.size] at hi
  have hget : l.complete[i]? = some l.complete[i] := List.getElem?_eq_getElem hi
  obtain ⟨n, keeps⟩ := hc.replayed.nodes i _ hget
  exact ⟨_, n, hget, hc.complete _ (List.getElem_mem hi), keeps⟩

theorem inside (h : b.forest.Has i p) : Extents.Inside t.sides p := by
  obtain ⟨_, _, -, complete, keeps⟩ := hc.exists_node h.lt
  exact (complete.component.mem ((has_iff_held keeps).1 h)).1

/-- The own positions of two nodes are apart. -/
theorem own_injective (hg : l.complete[i]? = some g) (hh : l.complete[j]? = some h)
    (hpg : p ∈ g.fresh) (hph : p ∈ h.fresh) : i = j := by
  have nodup : l.fresh.Nodup := hc.fresh.nodup_iff.2 Extents.nodup_cells
  exact eq_of_mem_flatMap (List.nodup_append.1 nodup).1 hg hh hpg hph

/-- Every position is an own position of a node. -/
theorem exists_own (hp : Extents.Inside t.sides p) :
    ∃ (i : Nat) (h : Holding α), l.complete[i]? = some h ∧ p ∈ h.fresh := by
  have hfresh : p ∈ l.fresh := hc.fresh.mem_iff.2 (Extents.mem_cells_iff.2 hp)
  rcases List.mem_append.1 hfresh with hp | hp
  · obtain ⟨h, hh, hp⟩ := List.mem_flatMap.1 hp
    obtain ⟨i, hi⟩ := List.mem_iff_getElem?.1 hh
    exact ⟨i, h, hi, hp⟩
  · obtain ⟨e, he, hp⟩ := List.mem_flatMap.1 hp
    simp [hc.settled e he] at hp

/-- No two nodes have the same positions. -/
theorem injective (order : TotalPreorder rank) (hi : i < b.forest.size) (hj : j < b.forest.size)
    (same : ∀ p, b.forest.Has i p ↔ b.forest.Has j p) : i = j := by
  obtain ⟨g, _, hg, gcomplete, gkeeps⟩ := hc.exists_node hi
  obtain ⟨h, _, hh, hcomplete, hkeeps⟩ := hc.exists_node hj
  have same' : ∀ p, p ∈ g.held ↔ p ∈ h.held := fun p => by
    rw [← has_iff_held gkeeps, ← has_iff_held hkeeps, same]
  obtain ⟨p, hp⟩ := List.exists_mem_of_ne_nil _ gcomplete.recent
  obtain ⟨q, hq⟩ := List.exists_mem_of_ne_nil _ hcomplete.recent
  have hpheld : p ∈ h.held := (same' p).1 ((gcomplete.fresh p).1 hp).1
  have hqheld : q ∈ g.held := (same' q).2 ((hcomplete.fresh q).1 hq).1
  have heq : rank g.level h.level = .eq := order.eq_of_le_of_le
    (level_le order gcomplete hcomplete hp hpheld) (level_le order hcomplete gcomplete hq hqheld)
  exact hc.own_injective hg hh hp (fresh_of_level order gcomplete hcomplete heq hp hpheld)

/-- Every position has its component at its level among the nodes. -/
theorem exists_component (order : TotalPreorder rank) {a : α} (hp : t.At p a) :
    ∃ i, i < b.forest.size ∧ ∀ q, b.forest.Has i q ↔ Joined (t.UpTo rank a) p q := by
  obtain ⟨i, h, hget, hfresh⟩ := hc.exists_own hp.1
  have hi : i < b.forest.size := by
    rw [hc.replayed.size]
    exact (List.getElem?_eq_some_iff.1 hget).1
  obtain ⟨h', _, hget', complete, keeps⟩ := hc.exists_node hi
  obtain rfl : h = h' := Option.some.inj (hget.symm.trans hget')
  obtain ⟨hheld, a', ha', heq⟩ := (complete.fresh p).1 hfresh
  obtain rfl := hp.unique ha'
  have hset : t.UpTo rank a = t.UpTo rank h.level := funext fun q => propext
    ⟨fun hq => hq.mono order (order.le_of_eq heq),
      fun hq => hq.mono order (order.le_of_eq (order.eq_symm heq))⟩
  refine ⟨i, hi, fun q => ?_⟩
  rw [has_iff_held keeps, hset]
  exact complete.component.iff_joined hheld

/-! ## Parents -/

/-- A child has positions of its parent, but none of its own. -/
theorem child (hi : i ∈ b.forest.childrenAt j) (hh : l.complete[j]? = some h) :
    (∀ p, b.forest.Has i p → b.forest.Has j p) ∧ ∀ p ∈ h.fresh, ¬ b.forest.Has i p := by
  obtain ⟨h', n, hh', complete, keeps⟩ := hc.exists_node (lt_of_mem_childrenAt hi).2
  obtain rfl : h = h' := Option.some.inj (hh.symm.trans hh')
  rw [childrenAt_eq keeps.get] at hi
  have hlisting := listingAt_eq keeps.get
  have hmem : ∀ {p}, b.forest.Has i p → p ∈ n.children.reverse.flatMap b.forest.listingAt :=
    fun hp => List.mem_flatMap.2 ⟨i, List.mem_reverse.2 hi, has_iff.1 hp⟩
  constructor
  · intro p hp
    rw [has_iff, hlisting]
    exact List.mem_append_right _ (hmem hp)
  · intro p hp hhas
    have nodup := keeps.listing.nodup_iff.2 complete.nodup
    rw [hlisting, keeps.own] at nodup
    exact (List.nodup_append.1 nodup).2.2 p hp p (hmem hhas) rfl

/-- Two children of a node have nothing in common. -/
theorem siblings (hi : i ∈ b.forest.childrenAt j) (hk : k ∈ b.forest.childrenAt j)
    (hpi : b.forest.Has i p) (hpk : b.forest.Has k p) : i = k := by
  obtain ⟨h, n, -, complete, keeps⟩ := hc.exists_node (lt_of_mem_childrenAt hi).2
  rw [childrenAt_eq keeps.get] at hi hk
  have nodup := keeps.listing.nodup_iff.2 complete.nodup
  rw [listingAt_eq keeps.get] at nodup
  exact eq_of_mem_listings (List.nodup_append.1 nodup).2.1 (List.mem_reverse.2 hi)
    (List.mem_reverse.2 hk) hpi hpk

theorem encloses_of_child (hi : i ∈ b.forest.childrenAt j) : b.forest.Encloses j i := by
  obtain ⟨h, n, hh, complete, keeps⟩ := hc.exists_node (lt_of_mem_childrenAt hi).2
  obtain ⟨hsub, hown⟩ := hc.child hi hh
  obtain ⟨p, hp⟩ := List.exists_mem_of_ne_nil _ complete.recent
  exact ⟨hsub, p, (has_iff_held keeps).2 ((complete.fresh p).1 hp).1, hown p hp⟩

/-- A component that meets a node of a higher level lies in a child of the node. -/
theorem exists_child (order : TotalPreorder rank) {n : Node α} (keeps : Keeps b.forest j g n)
    (hg : Complete t rank g) (hh : Complete t rank h) (hlt : rank g.level h.level = .gt)
    (hpg : p ∈ g.held) (hph : p ∈ h.held) :
    ∃ c ∈ b.forest.childrenAt j, ∀ q ∈ h.held, b.forest.Has c q := by
  have hle : rank h.level g.level ≠ .gt := order.le_of_lt (order.gt_iff_lt.1 hlt)
  obtain ⟨q, hq⟩ := List.exists_mem_of_ne_nil _ hh.recent
  have hqh : q ∈ h.held := ((hh.fresh q).1 hq).1
  have hqg : q ∈ g.held := nested order hh hg hle hph hpg q hqh
  rw [← keeps.listing.mem_iff, listingAt_eq keeps.get, List.mem_append, keeps.own] at hqg
  rcases hqg with hown | hqg
  · exact absurd hlt (level_le order hg hh hown hqh)
  · obtain ⟨c, hcj, hqc⟩ := List.mem_flatMap.1 hqg
    have hhas : b.forest.Has c q := has_iff.2 hqc
    obtain ⟨k, _, -, kcomplete, kkeeps⟩ := hc.exists_node hhas.lt
    have hqk : q ∈ k.held := (has_iff_held kkeeps).1 hhas
    refine ⟨c, by rw [childrenAt_eq keeps.get]; exact List.mem_reverse.1 hcj, fun r hr => ?_⟩
    rw [has_iff_held kkeeps]
    exact nested order hh kcomplete (level_le order hh kcomplete hq hqk) hqh hqk r hr

/-- A node that encloses a child encloses its parent or is that: below the level of the parent, it
would lie in a child, and that in no other one than the child it encloses. -/
theorem smallest (order : TotalPreorder rank) (hi : i ∈ b.forest.childrenAt j)
    (hk : b.forest.Encloses k i) (hp : b.forest.Has j p) : b.forest.Has k p := by
  obtain ⟨hij, hj⟩ := lt_of_mem_childrenAt hi
  obtain ⟨hsub, r, hrk, hri⟩ := hk
  obtain ⟨f, _, -, fcomplete, fkeeps⟩ := hc.exists_node (Nat.lt_trans hij hj)
  obtain ⟨g, _, hget, gcomplete, gkeeps⟩ := hc.exists_node hj
  obtain ⟨h, _, -, hcomplete, hkeeps⟩ := hc.exists_node hrk.lt
  obtain ⟨o, ho⟩ := fcomplete.component.exists_mem
  have hio : b.forest.Has i o := (has_iff_held fkeeps).2 ho
  have hgo : o ∈ g.held := (has_iff_held gkeeps).1 ((hc.child hi hget).1 o hio)
  have hho : o ∈ h.held := (has_iff_held hkeeps).1 (hsub o hio)
  rw [has_iff_held gkeeps] at hp
  rw [has_iff_held hkeeps]
  by_cases hle : rank g.level h.level = .gt
  · obtain ⟨c, hcj, hhas⟩ := hc.exists_child order gkeeps gcomplete hcomplete hle hgo hho
    obtain rfl := hc.siblings hi hcj hio (hhas o hho)
    exact absurd (hhas r ((has_iff_held hkeeps).1 hrk)) hri
  · exact nested order gcomplete hcomplete hle hgo hho p hp

/-! ## The root -/

theorem has_child_or_root (hi : i < b.forest.size) :
    i ∈ b.regions.flatMap (·.2.references) ∨ ∃ j, i ∈ b.forest.childrenAt j := by
  rw [← mem_linked_iff, ← List.mem_append, hc.linked.places.mem_iff]
  exact List.mem_range.2 hi

/-- All positions are held by the regions that are open at the end, through the nodes that these refer
to. -/
theorem roots_perm :
    ((b.regions.flatMap (·.2.references)).flatMap b.forest.listingAt).Perm
      (Extents.cells t.sides) :=
  (perm_listings hc.replayed.regions hc.settled).symm.trans hc.held

/-- The last node has all positions. -/
theorem whole : 0 < b.forest.size ∧
    ∀ p, b.forest.Has (b.forest.size - 1) p ↔ Extents.Inside t.sides p := by
  obtain ⟨g, hlast, hheld⟩ := hc.last
  rw [List.getLast?_eq_getElem?, ← hc.replayed.size] at hlast
  have hlt := (List.getElem?_eq_some_iff.1 hlast).1
  rw [← hc.replayed.size] at hlt
  obtain ⟨h, _, hget, -, keeps⟩ := hc.exists_node hlt
  obtain rfl : g = h := Option.some.inj (hlast.symm.trans hget)
  refine ⟨by omega, fun p => ?_⟩
  rw [has_iff_held keeps, ← hheld, hc.held.mem_iff, Extents.mem_cells_iff]

/-- Only the last node is the child of no node: the nodes that the open regions refer to are apart,
and the last one is among them. -/
theorem child_iff_not_last (hi : i < b.forest.size) :
    (∃ j, i ∈ b.forest.childrenAt j) ↔ i + 1 ≠ b.forest.size := by
  obtain ⟨hpos, hwhole⟩ := hc.whole
  constructor
  · rintro ⟨j, hj⟩
    have := lt_of_mem_childrenAt hj
    omega
  · intro hne
    refine (hc.has_child_or_root hi).resolve_left fun hroot => hne ?_
    have hlast : b.forest.size - 1 ∈ b.regions.flatMap (·.2.references) := by
      refine (hc.has_child_or_root (by omega)).resolve_right ?_
      rintro ⟨j, hj⟩
      have := lt_of_mem_childrenAt hj
      omega
    obtain ⟨h, _, -, complete, keeps⟩ := hc.exists_node hi
    obtain ⟨p, hp⟩ := complete.component.exists_mem
    have hhas : b.forest.Has i p := (has_iff_held keeps).2 hp
    have nodup := hc.roots_perm.nodup_iff.2 Extents.nodup_cells
    have heq := eq_of_mem_listings nodup hroot hlast hhas ((hwhole p).2 (hc.inside hhas))
    omega

/-- The nodes with the links between them are the tree of the components. -/
theorem isComponentTree (order : TotalPreorder rank) : IsComponentTree t rank b.forest where
  component := fun p a hp => by
    obtain ⟨i, hi, hmem⟩ := hc.exists_component order hp
    refine ⟨i, ⟨hi, hmem⟩, fun j ⟨hj, hmem'⟩ => ?_⟩
    exact hc.injective order hj hi fun q => (hmem' q).trans (hmem q).symm
  injective := fun i j => hc.injective order
  parent := fun i n hn j => by
    rw [hc.linked.rooted i n (node_eq_ok.1 hn) j]
    constructor
    · intro hchild
      exact ⟨hc.encloses_of_child hchild, fun k hk p hp => hc.smallest order hchild hk hp⟩
    · rintro ⟨⟨hsub, p, hpj, hpi⟩, hsmallest⟩
      have hi := get?_lt (node_eq_ok.1 hn)
      have hne : i + 1 ≠ b.forest.size := fun heq => by
        obtain rfl : i = b.forest.size - 1 := by omega
        exact hpi ((hc.whole.2 p).2 (hc.inside hpj))
      obtain ⟨k, hk⟩ := (hc.child_iff_not_last hi).2 hne
      have hkj : k = j := hc.injective order (lt_of_mem_childrenAt hk).2 hpj.lt fun q =>
        ⟨hc.smallest order hk ⟨hsub, p, hpj, hpi⟩, hsmallest k (hc.encloses_of_child hk) q⟩
      rwa [← hkj]
  root := fun i n hn => by
    have hn := node_eq_ok.1 hn
    rw [← not_iff_not, ← ne_eq, Option.ne_none_iff_exists']
    simp only [hc.linked.rooted i n hn]
    exact hc.child_iff_not_last (get?_lt hn)
  nonempty := hc.whole.1
  whole := hc.whole.2

end Carried

/-! ## Floods of whole terrains -/

section Whole

variable (flood : t.Floodable) (whole : ∀ p, Extents.Inside t.sides p → (t.level? p).isSome)

include flood whole

theorem reachable_iff_inside : t.Reachable p ↔ Extents.Inside t.sides p :=
  ⟨fun hp => hp.readable.1, t.reachable_of_inside whole flood.positive⟩

/-- A finished flood has added all positions. -/
theorem added_perm (accounted : Accounted t u) (phase : u.phase = .finished) :
    u.added.Perm (Extents.cells t.sides) := by
  refine (List.perm_ext_iff_of_nodup accounted.nodup_added Extents.nodup_cells).2 fun p => ?_
  rw [accounted.mem_added_iff phase, reachable_iff_inside flood whole, Extents.mem_cells_iff]

/-- No position is missing in a finished flood. -/
theorem result_eq (accounted : Accounted t u) (phase : u.phase = .finished) (validate : Bool) :
    u.result validate = .ok u.tally := by
  have hcount := accounted.countUnset_eq phase
  have hset : {p | t.Reachable p} = {p | Extents.Inside t.sides p} :=
    Set.ext fun _ => reachable_iff_inside flood whole
  rw [hset, Extents.ncard_inside] at hcount
  have hzero : u.visited.countUnset = 0 := by omega
  simp [State.result, phase, hzero]

theorem carried (accounted : Accounted t u) (phase : u.phase = .finished)
    (finished : Finished rank t u l) (replayed : Matches t.sides.length l b) (linked : Linked b) :
    Carried t rank l b where
  replayed := replayed
  linked := linked
  complete := finished.complete
  held := (Ledger.held_perm finished.run).trans (added_perm flood whole accounted phase)
  fresh := (Ledger.fresh_perm finished.run).trans (added_perm flood whole accounted phase)
  settled := finished.fresh
  last := by
    obtain ⟨g, hlast, hheld, -⟩ := finished.whole
    exact ⟨g, hlast, hheld⟩

/-- The forest of a finished flood, if there is room for its nodes. -/
theorem build_of_finished (accounted : Accounted t u) (phase : u.phase = .finished)
    (finished : Finished rank t u l) (fits : t.Fits)
    (hflood : Flood.run t (.ofRanking rank) lastLevel = .ok ⟨u.log, .ok u.tally⟩) :
    (l.complete.length ≤ nodeLimit →
      ∃ b, buildWith t rank lastLevel = .ok b.forest ∧ Carried t rank l b) ∧
      (nodeLimit < l.complete.length →
        buildWith t rank lastLevel = .error (.fault (.nodeLimit nodeLimit))) := by
  have logged := finished.toLogged
  constructor
  · intro room
    obtain ⟨b, hreplay, replayed, linked⟩ := exists_replay logged flood fits room
    exact ⟨b, buildWith_eq hflood hreplay,
      carried flood whole accounted phase finished replayed linked⟩
  · exact fun more => buildWith_full hflood (replay_full logged flood fits more)

/-- A flood with no level above its last one finishes. -/
theorem exists_finished (fits : t.Fits) (order : TotalPreorder rank)
    (below : ∀ p a, t.At p a → rank a lastLevel ≠ .gt) :
    ∃ u l, Flood.run t (.ofRanking rank) lastLevel = .ok ⟨u.log, .ok u.tally⟩ ∧
      u.phase = .finished ∧ Accounted t u ∧ Finished rank t u l := by
  obtain ⟨s, u, l, hstart, hrun, rfl, hends⟩ := exists_charted order flood fits lastLevel
  obtain ⟨phase, accounted, finished⟩ :=
    hends.resolve_right fun ⟨_, stranded⟩ => by
      obtain ⟨p, a, -, ha, hgt⟩ := stranded.high
      exact below p a ha hgt
  refine ⟨u, l, ?_, phase, accounted, finished⟩
  rw [← result_eq flood whole accounted phase true]
  exact run_eq hstart hrun

end Whole

/-! ## Crowded terrains -/

/-- Places that no ways join, at the level of the one they start at, are in as many nodes. -/
theorem IsComponentTree.le_size {n : Nat} {place : Fin n → Position} (tree : IsComponentTree t rank f)
    (scattered : t.Scattered rank place) : n ≤ f.size := by
  choose level hlevel apart using scattered
  choose node hnode _ using fun i => tree.component _ _ (hlevel i)
  have hinjective : Function.Injective fun i => (⟨node i, (hnode i).1⟩ : Fin f.size) := by
    intro i j hij
    have heq : node i = node j := congrArg Fin.val hij
    have hhas : f.Has (node j) (place j) := ((hnode j).2 _).2 .refl
    exact apart i j (((hnode i).2 _).1 (heq ▸ hhas))
  simpa using Fintype.card_le_of_injective _ hinjective

/-- A terrain with more components than there are indices of nodes makes no forest. -/
theorem buildWith_scattered {n : Nat} {place : Fin n → Position} (flood : t.Floodable) (fits : t.Fits)
    (whole : ∀ p, Extents.Inside t.sides p → (t.level? p).isSome) (order : TotalPreorder rank)
    (below : ∀ p a, t.At p a → rank a lastLevel ≠ .gt) (scattered : t.Scattered rank place)
    (more : nodeLimit < n) : buildWith t rank lastLevel = .error (.fault (.nodeLimit nodeLimit)) := by
  obtain ⟨u, l, hflood, phase, accounted, finished⟩ := exists_finished flood whole fits order below
  obtain ⟨hfew, hmany⟩ := build_of_finished flood whole accounted phase finished fits hflood
  refine hmany (Nat.lt_of_not_le fun room => ?_)
  obtain ⟨b, -, hc⟩ := hfew room
  have hle := (hc.isComponentTree order).le_size scattered
  rw [hc.replayed.size] at hle
  omega

/-- A comb with more low cells than there are indices of nodes makes no forest. -/
theorem buildWith_comb {n : Nat} {fits : 2 * n + 1 < Word.limit} {low high : α}
    (order : TotalPreorder rank) (hlevel : rank high low = .gt) (hhigh : rank high lastLevel ≠ .gt)
    (more : nodeLimit ≤ n) : buildWith (.ofGrid (Grid.comb n fits low high)) rank lastLevel =
      .error (.fault (.nodeLimit nodeLimit)) :=
  buildWith_scattered (Terrain.floodable_comb fits) (Terrain.fits_comb fits) (Terrain.whole_comb fits)
    order (Terrain.below_comb fits order hlevel hhigh) (Terrain.scattered_comb fits hlevel)
    (Nat.lt_succ_of_le more)

/-- A cell without dimensions is nothing to flood. -/
theorem buildWith_dot (v : α) : buildWith (.ofGrid (.dot v)) rank lastLevel = .error .nothingToFlood :=
  rfl

/-- A terrain without holes and levels above the last one is flooded without failure. Its nodes, of
which there are no more than cells, make the tree of its level components, unless there are too many
to be told apart. -/
theorem completeness (t : Terrain α) (flood : t.Floodable) (fits : t.Fits)
    (whole : ∀ p, Extents.Inside t.sides p → (t.level? p).isSome) (rank : Ranking α)
    (order : TotalPreorder rank) (lastLevel : α)
    (below : ∀ p a, t.At p a → rank a lastLevel ≠ .gt) :
    ∃ log tally, Flood.run t (.ofRanking rank) lastLevel = .ok ⟨log, .ok tally⟩ ∧
      tally.emitted ≤ Word.plainProduct t.sides ∧
      (tally.emitted ≤ nodeLimit →
        ∃ f, buildWith t rank lastLevel = .ok f ∧ IsComponentTree t rank f) ∧
      (nodeLimit < tally.emitted →
        buildWith t rank lastLevel = .error (.fault (.nodeLimit nodeLimit))) := by
  obtain ⟨u, l, hflood, phase, accounted, finished⟩ := exists_finished flood whole fits order below
  obtain ⟨hfew, hmany⟩ := build_of_finished flood whole accounted phase finished fits hflood
  have logged := finished.toLogged
  rw [← emitted_eq logged] at hfew hmany
  refine ⟨u.log, u.tally, hflood, emitted_le logged, fun room => ?_, hmany⟩
  obtain ⟨b, hbuild, hc⟩ := hfew room
  exact ⟨b.forest, hbuild, hc.isComponentTree order⟩

/-- A floor at the level of the ridge lets its tree be built. -/
theorem completeness_ridge : ridge.Floodable ∧ ridge.Fits ∧
    (∀ p, Extents.Inside ridge.sides p → (ridge.level? p).isSome) ∧
    TotalPreorder (Ranking.ofKey Int.ofNat) ∧
    (∀ p a, ridge.At p a → Ranking.ofKey Int.ofNat a 5 ≠ .gt) ∧
    ∃ f, buildWith ridge (.ofKey Int.ofNat) 5 = .ok f ∧
      IsComponentTree ridge (.ofKey Int.ofNat) f := by
  have flood : ridge.Floodable := ⟨by decide, by decide, by decide, by decide⟩
  have fits : ridge.Fits := ⟨by decide, by decide⟩
  have whole : ∀ p, Extents.Inside ridge.sides p → (ridge.level? p).isSome := by
    intro p _
    simp only [ridge]
    split
    · rfl
    · split <;> rfl
  have below : ∀ p a, ridge.At p a → Ranking.ofKey Int.ofNat a 5 ≠ .gt := by
    rintro p a ⟨-, hlevel⟩
    simp only [ridge] at hlevel
    split at hlevel
    · cases hlevel; decide
    · split at hlevel <;> cases hlevel <;> decide
  obtain ⟨_, _, -, hfew, htree, -⟩ :=
    completeness ridge flood fits whole (.ofKey Int.ofNat) (.ofKey _) 5 below
  exact ⟨flood, fits, whole, .ofKey _, below, htree (hfew.trans (by decide))⟩

/-- A comb with one low cell more than there are indices of nodes makes no tree, and neither does a
cell without dimensions. -/
theorem completeness_crowded :
    let rank : Ranking Nat := .ofKey Int.ofNat
    let comb := Terrain.ofGrid (Grid.comb nodeLimit (by decide) 0 1)
    let dot := Terrain.ofGrid (Grid.dot 5)
    TotalPreorder rank ∧
    (comb.Floodable ∧ comb.Fits ∧ (∀ p, Extents.Inside comb.sides p → (comb.level? p).isSome) ∧
      (∀ p a, comb.At p a → rank a 1 ≠ .gt) ∧
      buildWith comb rank 1 = .error (.fault (.nodeLimit nodeLimit))) ∧
    ((∀ c ∈ dot.corner, c = 0) ∧ 0 ∉ dot.sides ∧ dot.Fits ∧
      (∀ p, Extents.Inside dot.sides p → (dot.level? p).isSome) ∧
      (∀ p a, dot.At p a → rank a 7 ≠ .gt) ∧
      buildWith dot rank 7 = .error .nothingToFlood) := by
  intro rank comb dot
  have order : TotalPreorder rank := .ofKey _
  refine ⟨order, ?comb, ?dot⟩
  case comb =>
    exact ⟨Terrain.floodable_comb _, Terrain.fits_comb _, Terrain.whole_comb _,
      Terrain.below_comb _ order rfl (by decide), buildWith_comb order rfl (by decide) (Nat.le_refl _)⟩
  case dot =>
    refine ⟨by decide, by decide, Terrain.fits_dot, Terrain.whole_dot, fun p a ha => ?_,
      buildWith_dot 5⟩
    rw [Terrain.eq_of_at_dot ha]
    decide

end LevelTree.Forest
