import LevelTree.Proofs.Forest.Growth
import Mathlib.Data.Set.Card
import Mathlib.Order.Interval.Finset.Nat

/-!
# The order of the nodes

Nodes are emitted in post-order: the nodes of a subtree come one right after the other, and its root
is the last of them (`post_order`). While a forest grows, the nodes below those that an open region
refers to are a run of indices, and the runs of the open regions, from the youngest down to the floor,
lie end to end (`Tiles`). An emission turns the last run into a subtree, and a merge joins the last
two. This holds under any ranking, and for floods that fail.
-/

namespace LevelTree.Forest

open Flood Relation

variable {ν α : Type} {f g : Forest α} {r : Region α} {is js : List Nat} {i j c lo mid hi : Nat}

/-- The node `j` is `i` itself or a descendant of it. -/
def Below (f : Forest α) (i j : Nat) : Prop := ReflTransGen (fun i c => c ∈ f.childrenAt i) i j

/-- The nodes of the subtrees rooted at the listed ones are those from `lo` on and before `hi`. -/
def Spans (f : Forest α) (is : List Nat) (lo hi : Nat) : Prop :=
  ∀ j, (∃ i ∈ is, f.Below i j) ↔ lo ≤ j ∧ j < hi

/-- Every subtree ends with its root and leaves no gap. -/
def PostOrdered (f : Forest α) : Prop := ∀ i < f.size, ∃ lo ≤ i, f.Spans [i] lo (i + 1)

/-! ## Subtrees -/

/-- A subtree is its root with the subtrees of the children. -/
theorem below_iff : f.Below i j ↔ i = j ∨ ∃ c ∈ f.childrenAt i, f.Below c j :=
  ReflTransGen.cases_head_iff

/-- An emission leaves the subtrees. -/
theorem Grown.below_old (h : Grown f g r) (hi : i < f.size) : g.Below i j ↔ f.Below i j := by
  induction i using Nat.strongRecOn with
  | ind i ih =>
    rw [below_iff, below_iff, h.childrenAt_old hi]
    refine or_congr_right (exists_congr fun c => and_congr_right fun hc => ?_)
    exact ih c (lt_of_mem_childrenAt hc).1 (Nat.lt_trans (lt_of_mem_childrenAt hc).1 hi)

theorem Grown.spans_old (h : Grown f g r) (spans : f.Spans is lo hi) (hhi : hi ≤ f.size) :
    g.Spans is lo hi := by
  intro j
  rw [← spans j]
  refine exists_congr fun i => and_congr_right fun hi' => h.below_old ?_
  exact Nat.lt_of_lt_of_le ((spans i).1 ⟨i, hi', .refl⟩).2 hhi

/-! ## Runs of subtrees -/

theorem spans_nil : f.Spans [] lo lo := by
  intro j
  simp only [List.not_mem_nil, false_and, exists_false, false_iff]
  omega

theorem Spans.congr (spans : f.Spans is lo hi) (h : ∀ i, i ∈ js ↔ i ∈ is) : f.Spans js lo hi := by
  intro j
  rw [← spans j]
  exact exists_congr fun i => and_congr_left fun _ => h i

/-- Two runs that lie end to end are one. -/
theorem Spans.append (hle : lo ≤ mid) (hle' : mid ≤ hi) (spans : f.Spans is lo mid)
    (spans' : f.Spans js mid hi) : f.Spans (is ++ js) lo hi := by
  intro j
  have hfirst := spans j
  have hlast := spans' j
  simp only [List.mem_append, or_and_right, exists_or]
  rw [hfirst, hlast]
  omega

/-- The subtree of an emitted region is the run of the nodes it refers to, with a root at its end. -/
theorem Grown.spans_new (h : Grown f g r) (hle : lo ≤ f.size) (spans : f.Spans r.references lo f.size) :
    g.Spans [f.size] lo (f.size + 1) := by
  intro j
  have hold := h.spans_old spans (Nat.le_refl _) j
  simp only [List.mem_singleton, exists_eq_left]
  rw [below_iff, h.childrenAt_new, hold]
  omega

theorem Grown.postOrdered (h : Grown f g r) (ordered : f.PostOrdered) (hle : lo ≤ f.size)
    (spans : f.Spans r.references lo f.size) : g.PostOrdered := by
  intro i hi
  rw [h.size] at hi
  rcases Nat.lt_succ_iff_lt_or_eq.1 hi with hi | rfl
  · obtain ⟨lo, hlo, hspans⟩ := ordered i hi
    exact ⟨lo, hlo, h.spans_old hspans hi⟩
  · exact ⟨lo, hle, h.spans_new hle spans⟩

/-- The regions refer to runs of subtrees that lie end to end, the last one up to `hi`. -/
def Tiles (f : Forest α) : List (ν × Region α) → Nat → Prop
  | [], hi => hi = 0
  | e :: rest, hi => ∃ lo ≤ hi, f.Spans e.2.references lo hi ∧ f.Tiles rest lo

theorem Grown.tiles_old (h : Grown f g r) {regions : List (ν × Region α)}
    (tiles : f.Tiles regions hi) (hhi : hi ≤ f.size) : g.Tiles regions hi := by
  induction regions generalizing hi with
  | nil => exact tiles
  | cons e rest ih =>
    obtain ⟨lo, hlo, spans, hrest⟩ := tiles
    exact ⟨lo, hlo, h.spans_old spans hhi, ih hrest (Nat.le_trans hlo hhi)⟩

/-! ## Assemblies -/

variable [DecidableEq ν] {a b : Assembly ν α} {script u : Script ν} {e : Event ν α}
  {events more : List (Event ν α)} {name other : ν} {rest : List (ν × Region α)} {s : Region α}

/-- The open regions are those of a script, the nodes are in post-order, and the regions refer to
their runs. -/
structure Stacked (script : Script ν) (a : Assembly ν α) : Prop where
  names : a.regions.map (·.1) = script.stack
  tiles : a.forest.Tiles a.regions a.forest.size
  ordered : a.forest.PostOrdered

omit [DecidableEq ν] in
theorem stacked_empty (sides : List Nat) :
    Stacked Script.blank (.ofForest (.empty sides) : Assembly ν α) where
  names := rfl
  tiles := rfl
  ordered := fun i hi => absurd hi (Nat.not_lt_zero i)

omit [DecidableEq ν] in
/-- The youngest region of a script is the first one of the assembly. -/
theorem Stacked.exists_first {names stack : List ν} {turn : Turn}
    (h : Stacked ⟨names, name :: stack, turn⟩ a) (nodup : (name :: stack).Nodup) :
    ∃ r rest, a.regions = (name, r) :: rest ∧ rest.map (·.1) = stack ∧
      name ∉ rest.map (·.1) := by
  have hnames := h.names
  cases hregions : a.regions with
  | nil => simp [hregions] at hnames
  | cons e rest =>
    simp only [hregions, List.map_cons, List.cons.injEq] at hnames
    obtain ⟨hname, hstack⟩ := hnames
    exact ⟨e.2, rest, by rw [← hname], hstack, hstack ▸ (List.nodup_cons.1 nodup).1⟩

theorem region_first (hregions : a.regions = (name, r) :: rest) (hs : a.region name = .ok s) :
    s = r := by
  simpa [Assembly.region, hregions, eq_comm] using hs

theorem regions_insert_first (hregions : a.regions = (name, r) :: rest)
    (hname : name ∉ rest.map (·.1)) : (a.insert name s).regions = (name, s) :: rest := by
  rw [Assembly.regions_insert, hregions, Entries.without_cons_self rfl,
    Entries.without_of_not_mem hname]

theorem regions_remove_first (hregions : a.regions = (name, r) :: rest)
    (hname : name ∉ rest.map (·.1)) : (a.remove name).regions = rest := by
  rw [← Entries.without_of_not_mem hname, Assembly.remove, hregions]
  exact Entries.without_cons_self rfl

/-- A new region refers to nothing, behind all nodes. -/
theorem Stacked.create {names stack : List ν} {turn turn' : Turn} {level : α}
    (h : Stacked ⟨names, stack, turn⟩ a) (new : name ∉ stack) :
    Stacked ⟨name :: names, name :: stack, turn'⟩ (a.insert name (.ofLevel level)) := by
  have hregions : (a.insert name (.ofLevel level)).regions =
      (name, .ofLevel level) :: a.regions := by
    rw [Assembly.regions_insert, Entries.without_of_not_mem (h.names ▸ new)]
  constructor
  case names => rw [hregions, List.map_cons, h.names]
  case tiles =>
    rw [hregions]
    exact ⟨a.forest.size, Nat.le_refl _, spans_nil, h.tiles⟩
  case ordered => exact h.ordered

/-- A region that keeps its references keeps its run. -/
theorem Stacked.update {names stack : List ν} {turn turn' : Turn}
    (h : Stacked ⟨names, name :: stack, turn⟩ a) (nodup : (name :: stack).Nodup)
    (hr : a.region name = .ok r) (hs : s.references = r.references) :
    Stacked ⟨names, name :: stack, turn'⟩ (a.insert name s) := by
  obtain ⟨first, rest, hregions, hstack, hname⟩ := h.exists_first nodup
  obtain rfl := region_first hregions hr
  have htiles := h.tiles
  rw [hregions] at htiles
  obtain ⟨lo, hlo, spans, hrest⟩ := htiles
  have hregions' := regions_insert_first (s := s) hregions hname
  constructor
  case names => rw [hregions', List.map_cons, hstack]
  case tiles =>
    rw [hregions']
    exact ⟨lo, hlo, hs ▸ spans, hrest⟩
  case ordered => exact h.ordered

/-- A merge joins the last two runs. -/
theorem Stacked.merge {names stack : List ν} {turn turn' : Turn}
    (h : Stacked ⟨names, other :: name :: stack, turn⟩ a) (nodup : (other :: name :: stack).Nodup)
    (hb : a.apply (.merge name other) = .ok b) : Stacked ⟨names, name :: stack, turn'⟩ b := by
  obtain ⟨s, r, u, hs, hr, hu, rfl⟩ := Assembly.apply_merge.1 hb
  obtain ⟨last, below, hregions, hstack, hother⟩ := h.exists_first nodup
  obtain rfl := region_first hregions hs
  have hremove := regions_remove_first hregions hother
  -- what is left has the next region in front
  cases below with
  | nil => cases hstack
  | cons e rest =>
    obtain ⟨n, next⟩ := e
    simp only [List.map_cons, List.cons.injEq] at hstack
    obtain ⟨rfl, hstack⟩ := hstack
    have hname : n ∉ rest.map (·.1) := hstack ▸ (List.nodup_cons.1 (List.nodup_cons.1 nodup).2).1
    obtain rfl := region_first hremove hr
    have htiles := h.tiles
    rw [hregions] at htiles
    obtain ⟨mid, hmid, spans, lo, hlo, spans', hrest⟩ := htiles
    have hregions' := regions_insert_first (s := u) hremove hname
    constructor
    case names => rw [hregions', List.map_cons, hstack]
    case tiles =>
      rw [hregions']
      refine ⟨lo, Nat.le_trans hlo hmid, ?_, hrest⟩
      exact (Spans.append hlo hmid spans' spans).congr fun i => (Region.references_merge hu).mem_iff
    case ordered => exact h.ordered

/-- An emission puts a root behind the last run. -/
theorem Stacked.emit {names stack : List ν} {turn turn' : Turn}
    (h : Stacked ⟨names, name :: stack, turn⟩ a) (nodup : (name :: stack).Nodup)
    (hb : a.apply (.emit name) = .ok b) : Stacked ⟨names, name :: stack, turn'⟩ b := by
  obtain ⟨r, s, g, hr, hg, rfl⟩ := Assembly.apply_emit.1 hb
  obtain ⟨first, rest, hregions, hstack, hname⟩ := h.exists_first nodup
  obtain rfl := region_first hregions hr
  have htiles := h.tiles
  rw [hregions] at htiles
  obtain ⟨lo, hlo, spans, hrest⟩ := htiles
  have known : ∀ c ∈ r.references, c < a.forest.size := fun c hc =>
    ((spans c).1 ⟨c, hc, .refl⟩).2
  obtain ⟨rfl, grown⟩ := grown_of_emit known hg
  have hregions' := regions_insert_first (s := r.settled a.forest.size) hregions hname
  constructor
  case names => exact (congrArg (List.map (·.1)) hregions').trans (by rw [List.map_cons, hstack])
  case tiles =>
    change g.Tiles (a.insert name (r.settled a.forest.size)).regions g.size
    rw [hregions', grown.size]
    exact ⟨lo, Nat.le_succ_of_le hlo, grown.spans_new hlo spans, grown.tiles_old hrest hlo⟩
  case ordered => exact grown.postOrdered h.ordered hlo spans

/-- Every event that a script allows keeps the runs. -/
theorem Stacked.step (h : Stacked script a) (traced : Script.Traced events script)
    (step : Script.Step script e u) (hb : a.apply e = .ok b) : Stacked u b := by
  have nodup := traced.nodup_stack
  cases step with
  | floor =>
    cases hb
    exact h.create (by simp)
  | create new =>
    cases hb
    exact h.create fun hmem => new (traced.mem_names hmem)
  | add =>
    obtain ⟨r, s, hr, hs, rfl⟩ := Assembly.apply_add.1 hb
    exact h.update nodup hr (Region.references_add hs)
  | emit => exact h.emit nodup hb
  | raise =>
    obtain ⟨r, hr, rfl⟩ := Assembly.apply_raise.1 hb
    exact h.update nodup hr rfl
  | merge => exact h.merge nodup hb

/-- A log that a script allows keeps the runs. -/
theorem Stacked.replay (h : Stacked script a) (traced : Script.Traced events script)
    (runs : Script.Runs script more u) (hb : a.replay more = .ok b) : Stacked u b := by
  induction runs generalizing a events with
  | nil =>
    cases hb
    exact h
  | @cons _ _ _ e _ step _ ih =>
    rw [Assembly.replay_cons] at hb
    cases hc : a.apply e with
    | error fault => simp [hc, Except.bind] at hb
    | ok c =>
      rw [hc] at hb
      exact ih (h.step traced step hc) (traced.step step) hb

/-- What a flood leaves in an empty forest is in post-order. -/
theorem postOrdered_of_grow {t : Terrain α} {settings : Settings α} {lastLevel : α}
    {result : Except Failure Tally}
    (hgrow : (empty t.sides).grow t settings lastLevel = .ok (f, result)) : f.PostOrdered := by
  obtain ⟨outcome, a, hrun, hreplay, rfl⟩ := exists_replay_of_grow hgrow
  rcases visits_of_run hrun with hlog | ⟨u, visits, -, hlog⟩
  · rw [hlog] at hreplay
    cases hreplay
    exact (stacked_empty (ν := Nat) t.sides).ordered
  · obtain ⟨script, scripted⟩ := visits.scripted
    rw [hlog] at hreplay
    exact ((stacked_empty t.sides).replay Script.traced_nil scripted.runs hreplay).ordered

/-- Under any ranking and over any floor, a flood that fits leaves a forest, whether it fails or not,
and the subtree of every node takes up as many places as it has nodes, the root in the last one. -/
theorem post_order (t : Terrain α) (settings : Settings α) (lastLevel : α) :
    (t.Fits → ∃ outcome, Flood.run t settings lastLevel = .ok outcome ∧
      (outcome.log.countP Event.isEmit ≤ nodeLimit →
        ∃ f, (empty t.sides).grow t settings lastLevel = .ok (f, outcome.result) ∧
          f.size = outcome.log.countP Event.isEmit)) ∧
      ∀ f result, (empty t.sides).grow t settings lastLevel = .ok (f, result) → ∀ i < f.size,
        {j | f.Below i j}.ncard ≤ i + 1 ∧
          ∀ j, f.Below i j ↔ i + 1 - {j | f.Below i j}.ncard ≤ j ∧ j ≤ i := by
  refine ⟨fun fits => exists_grow fits settings lastLevel, fun f result hgrow i hi => ?_⟩
  obtain ⟨lo, hlo, spans⟩ := postOrdered_of_grow hgrow i hi
  have hbelow : ∀ j, f.Below i j ↔ lo ≤ j ∧ j ≤ i := fun j => by
    have hj := spans j
    rw [Nat.lt_succ_iff] at hj
    simpa using hj
  have hset : {j | f.Below i j} = (Finset.Icc lo i : Set Nat) := by
    ext j
    simp [hbelow]
  rw [hset, Set.ncard_coe_finset, Nat.card_Icc]
  refine ⟨by omega, fun j => (hbelow j).trans ?_⟩
  omega

/-- A row of two basins, and a cell above them. -/
def twins : Terrain Nat := ⟨[4], [0], fun p =>
  if p = [0] then some 1 else if p = [1] then some 3 else if p = [2] then some 2 else some 7⟩

/-- Under a ranking that is no order, the ridge between the basins becomes two nodes before the flood
is stranded. -/
theorem post_order_twins : twins.Fits ∧
    ∃ f, (empty [4]).grow twins ⟨unequal, true⟩ 5 = .ok (f, .error .aboveFloor) ∧ f.size = 4 ∧
      ∀ i < f.size, {j | f.Below i j}.ncard ≤ i + 1 ∧
        ∀ j, f.Below i j ↔ i + 1 - {j | f.Below i j}.ncard ≤ j ∧ j ≤ i := by
  have fits : twins.Fits := ⟨by decide, by decide⟩
  have heval : (Flood.run twins ⟨unequal, true⟩ 5).map
      (fun o => (o.result, o.log.countP Event.isEmit)) = .ok (.error .aboveFloor, 4) := by
    decide +kernel
  obtain ⟨leaves, ordered⟩ := post_order twins ⟨unequal, true⟩ 5
  obtain ⟨outcome, hrun, hforest⟩ := leaves fits
  obtain ⟨hresult, hcount⟩ : outcome.result = .error .aboveFloor ∧
      outcome.log.countP Event.isEmit = 4 := by simpa [hrun, Except.map] using heval
  rw [hcount, hresult] at hforest
  obtain ⟨f, hgrow, hsize⟩ := hforest (by decide)
  exact ⟨fits, f, hgrow, hsize, ordered f _ hgrow⟩

end LevelTree.Forest
