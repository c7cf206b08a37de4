import LevelTree.Proofs.Forest.PostOrder

/-!
# Floods into a forest that has nodes

What is emitted into an empty forest can be emitted behind the nodes of another one: each index of a
node goes up by their number, and nothing else differs (`Assembly.replay_graft`). The nodes that were
there stay as they are, since an index from below their number never comes into a region of the run.
So a flood leaves the same nodes behind any others, with the same result (`grow_behind`).
-/

namespace LevelTree

open Flood

variable {ν α : Type} {n : Nat} {r s : Region α} {p : Position}

/-- The node with its relatives `n` places further up. -/
def Node.shift (n : Nat) (node : Node α) : Node α :=
  { node with parent := node.parent.map (n + ·), children := node.children.map (n + ·) }

/-- The region with the nodes it refers to `n` places further up. -/
def Region.shift (n : Nat) (r : Region α) : Region α :=
  { r with children := r.children.map (n + ·), node := r.node.map (n + ·) }

/-- The nodes of `base` with those of `g` behind them. -/
def Forest.graft (base g : Forest α) : Forest α where
  sides := base.sides
  nodes := base.nodes ++ g.nodes.map (·.shift base.size)
  children_lt := by
    intro i hi c hc
    rw [Array.getElem_append] at hc
    split at hc
    next hold => exact base.children_lt i hold c hc
    next hnew =>
      rw [Array.getElem_map] at hc
      obtain ⟨d, hd, rfl⟩ := List.mem_map.1 hc
      have hlt := g.children_lt _ _ d hd
      have hsize : base.size = base.nodes.size := rfl
      omega

/-- The assembly with its forest behind the nodes of `base`. -/
def Assembly.graft (base : Forest α) (a : Assembly ν α) : Assembly ν α :=
  ⟨a.regions.map fun entry => (entry.1, entry.2.shift base.size), base.graft a.forest⟩

theorem Node.shift_zero (node : Node α) : node.shift 0 = node := by simp [shift]

/-! ## Regions -/

namespace Region

theorem shift_settled (i : Nat) :
    (r.settled i).shift n = (r.shift n).settled (n + i) := rfl

theorem nodeOf_shift : Forest.nodeOf (r.shift n) = (Forest.nodeOf r).shift n := by
  cases h : r.node <;> simp [Forest.nodeOf, Node.shift, shift, references, h]

theorem references_shift : (r.shift n).references = r.references.map (n + ·) := by
  cases h : r.node <;> simp [shift, references, h]

theorem add_shift (h : r.add p = .ok s) : (r.shift n).add p = .ok (s.shift n) := by
  obtain ⟨hlt, rfl⟩ := add_eq_ok.1 h
  exact add_eq_ok.2 ⟨hlt, rfl⟩

theorem merge_shift {u : Region α} (h : r.merge s = .ok u) :
    (r.shift n).merge (s.shift n) = .ok (u.shift n) := by
  obtain ⟨hlt, rfl⟩ := merge_eq_ok.1 h
  refine merge_eq_ok.2 ⟨hlt, ?_⟩
  cases hnode : s.node <;> simp [shift, hnode]

end Region

/-! ## Emissions -/

namespace Forest

variable {base f g : Forest α} {i : Nat}

theorem eq_of_nodes (sides : f.sides = g.sides) (nodes : f.nodes = g.nodes) : f = g := by
  cases f
  cases g
  cases sides
  cases nodes
  rfl

@[simp] theorem graft_empty (sides : List Nat) : base.graft (empty sides) = base :=
  eq_of_nodes rfl (by simp [graft, empty])

@[simp] theorem size_graft : (base.graft g).size = base.size + g.size := by simp [graft, size]

/-- The nodes in front are those of `base`. -/
theorem get?_graft_old (hi : i < base.size) : (base.graft g).get? i = base.get? i :=
  Array.getElem?_append_left hi

theorem get?_graft_new (base g : Forest α) (i : Nat) :
    (base.graft g).get? (base.size + i) = (g.get? i).map (·.shift base.size) := by
  have hle : base.nodes.size ≤ base.size + i := Nat.le_add_right _ _
  have hsub : base.size + i - base.nodes.size = i := Nat.add_sub_cancel_left ..
  rw [get?, graft, Array.getElem?_append_right hle, hsub, Array.getElem?_map]
  rfl

/-- The children that are adopted lie behind the nodes of `base`. -/
theorem adopt_graft (nodes rest : Array (Node α)) (parent : Nat) (children : List Nat) :
    adopt (nodes ++ rest.map (·.shift nodes.size)) (nodes.size + parent)
        (children.map (nodes.size + ·)) =
      nodes ++ (adopt rest parent children).map (·.shift nodes.size) := by
  refine Array.ext_getElem? fun i => ?_
  rw [getElem?_adopt]
  rcases Nat.lt_or_ge i nodes.size with hold | hnew
  · have hnot : i ∉ children.map (nodes.size + ·) := by
      intro hi
      obtain ⟨c, -, rfl⟩ := List.mem_map.1 hi
      omega
    rw [Array.getElem?_append_left hold, Array.getElem?_append_left hold]
    simp only [if_neg hnot, Option.map_id']
  · obtain ⟨j, rfl⟩ := Nat.exists_eq_add_of_le hnew
    have hmem : nodes.size + j ∈ children.map (nodes.size + ·) ↔ j ∈ children := by simp
    rw [Array.getElem?_append_right hnew, Array.getElem?_append_right hnew, Nat.add_sub_cancel_left,
      Array.getElem?_map, Array.getElem?_map, getElem?_adopt, Option.map_map, Option.map_map]
    refine congrArg (Option.map · rest[j]?) (funext fun node => ?_)
    by_cases hj : j ∈ children
    · simp only [Function.comp_apply, if_pos hj, if_pos (hmem.2 hj)]
      rfl
    · simp only [Function.comp_apply, if_neg hj, if_neg (mt hmem.1 hj)]

/-- What an emission does, when it is done. -/
theorem emit_eq_ok : f.emit r = .ok (s, g) ↔ f.size < nodeLimit ∧
    (∀ c ∈ r.references, c < f.size) ∧ r.settled f.size = s ∧ f.sides = g.sides ∧
      (adopt f.nodes f.size r.references).push (nodeOf r) = g.nodes := by
  unfold emit nodeIndex nodeIndex?
  by_cases room : f.size < nodeLimit
  · by_cases known : ∀ c ∈ r.references, c < f.size
    · have hroom : f.nodes.size < nodeLimit := room
      have hknown : ∀ c ∈ r.references, c < f.nodes.size := known
      simp only [hroom, if_true, bind, Except.bind, pure, Except.pure]
      rw [dif_pos hknown]
      simp only [Except.ok.injEq, Prod.mk.injEq]
      constructor
      · rintro ⟨rfl, rfl⟩
        exact ⟨room, known, rfl, rfl, rfl⟩
      · rintro ⟨-, -, rfl, hsides, hnodes⟩
        exact ⟨rfl, eq_of_nodes hsides hnodes⟩
    · have hroom : f.nodes.size < nodeLimit := room
      have hknown : ¬ ∀ c ∈ r.references, c < f.nodes.size := known
      simp only [hroom, if_true, bind, Except.bind, pure, Except.pure]
      rw [dif_neg hknown]
      simp only [throw, throwThe, MonadExceptOf.throw, reduceCtorEq, false_iff]
      exact fun h => known h.2.1
  · have hroom : ¬ f.nodes.size < nodeLimit := room
    simp [hroom, room, bind, Except.bind]

/-- An emission is the same behind other nodes, if there is room. -/
theorem emit_graft (h : g.emit r = .ok (s, f)) (room : base.size + f.size ≤ nodeLimit) :
    (base.graft g).emit (r.shift base.size) = .ok (s.shift base.size, base.graft f) := by
  have hsize := size_emit h
  obtain ⟨-, known, rfl, -, hnodes⟩ := emit_eq_ok.1 h
  refine emit_eq_ok.2 ⟨?_, ?_, ?_, rfl, ?_⟩
  · rw [size_graft]
    omega
  · intro c hc
    rw [Region.references_shift] at hc
    obtain ⟨d, hd, rfl⟩ := List.mem_map.1 hc
    rw [size_graft]
    exact Nat.add_lt_add_left (known d hd) _
  · rw [size_graft, Region.shift_settled]
  · have hadopt := adopt_graft base.nodes g.nodes g.size r.references
    rw [size_graft, Region.references_shift, Region.nodeOf_shift]
    simp only [graft, ← hnodes, Array.map_push, Array.append_push]
    exact congrArg (Array.push · _) hadopt

end Forest

/-! ## Replays -/

namespace Assembly

open Forest

variable [DecidableEq ν] {base : Forest α} {a b : Assembly ν α} {e : Event ν α}
  {events : List (Event ν α)} {name other : ν}

omit [DecidableEq ν] in
theorem graft_ofForest (sides : List Nat) :
    (ofForest (empty sides) : Assembly ν α).graft base = ofForest base := by
  simp [graft, ofForest]

theorem remove_graft : (a.graft base).remove name = (a.remove name).graft base := by
  simp [remove, graft, List.filter_map, Function.comp_def]

theorem insert_graft :
    (a.graft base).insert name (r.shift base.size) = (a.insert name r).graft base := by
  simp only [insert, remove_graft]
  rfl

theorem region_graft (h : a.region name = .ok r) :
    (a.graft base).region name = .ok (r.shift base.size) := by
  have hlookup : (a.graft base).regions.lookup name =
      (a.regions.lookup name).map (·.shift base.size) := by
    rw [graft]
    induction a.regions with
    | nil => rfl
    | cons entry rest ih =>
      rw [List.map_cons, List.lookup_cons, List.lookup_cons, ih]
      split <;> rfl
  unfold region at h ⊢
  rw [hlookup]
  split at h <;> cases h
  next heq => simp [heq]

/-- An emission adds a node to the forest, for which there was room, and no other event does. -/
theorem size_of_apply (h : a.apply e = .ok b) :
    b.forest.size = a.forest.size + (if e.isEmit then 1 else 0) ∧
      (a.forest.size ≤ nodeLimit → b.forest.size ≤ nodeLimit) := by
  cases e with
  | floor name level | create name level =>
    cases h
    exact ⟨rfl, id⟩
  | add name p =>
    obtain ⟨r, s, -, -, rfl⟩ := apply_add.1 h
    exact ⟨rfl, id⟩
  | raise name level =>
    obtain ⟨r, -, rfl⟩ := apply_raise.1 h
    exact ⟨rfl, id⟩
  | merge name other =>
    obtain ⟨s, r, u, -, -, -, rfl⟩ := apply_merge.1 h
    exact ⟨rfl, id⟩
  | emit name =>
    obtain ⟨r, s, g, -, hg, rfl⟩ := apply_emit.1 h
    have hsize : g.size = a.forest.size + 1 := size_emit hg
    exact ⟨hsize, fun _ => hsize ▸ (emit_eq_ok.1 hg).1⟩

/-- An event does the same behind other nodes. -/
theorem apply_graft (h : a.apply e = .ok b) (room : base.size + b.forest.size ≤ nodeLimit) :
    (a.graft base).apply e = .ok (b.graft base) := by
  cases e with
  | floor name level | create name level =>
    cases h
    exact congrArg Except.ok (insert_graft (r := .ofLevel level))
  | add name p =>
    obtain ⟨r, s, hr, hs, rfl⟩ := apply_add.1 h
    exact apply_add.2 ⟨_, _, region_graft hr, Region.add_shift hs, insert_graft⟩
  | raise name level =>
    obtain ⟨r, hr, rfl⟩ := apply_raise.1 h
    exact apply_raise.2 ⟨_, region_graft hr, insert_graft (r := r.raise level)⟩
  | merge name other =>
    obtain ⟨s, r, u, hs, hr, hu, rfl⟩ := apply_merge.1 h
    refine apply_merge.2 ⟨_, _, _, region_graft hs, ?_, Region.merge_shift hu, ?_⟩
    · rw [remove_graft]
      exact region_graft hr
    · rw [remove_graft, insert_graft]
  | emit name =>
    obtain ⟨r, s, g, hr, hg, rfl⟩ := apply_emit.1 h
    refine apply_emit.2 ⟨_, _, _, region_graft hr, emit_graft hg room, ?_⟩
    rw [insert_graft]
    rfl

/-- A replay adds a node for each emission, as far as there is room. -/
theorem size_of_replay (h : a.replay events = .ok b) :
    b.forest.size = a.forest.size + events.countP Event.isEmit ∧
      (a.forest.size ≤ nodeLimit → b.forest.size ≤ nodeLimit) := by
  induction events generalizing a with
  | nil =>
    cases h
    exact ⟨rfl, id⟩
  | cons e events ih =>
    rw [replay_cons] at h
    cases hc : a.apply e with
    | error fault => simp [hc, Except.bind] at h
    | ok c =>
      rw [hc] at h
      obtain ⟨hfirst, room⟩ := size_of_apply hc
      obtain ⟨hrest, room'⟩ := ih h
      rw [List.countP_cons]
      exact ⟨by omega, fun hroom => room' (room hroom)⟩

/-- A replay does the same behind other nodes. -/
theorem replay_graft (base : Forest α) (h : a.replay events = .ok b)
    (room : base.size + b.forest.size ≤ nodeLimit) :
    (a.graft base).replay events = .ok (b.graft base) := by
  induction events generalizing a with
  | nil =>
    cases h
    rfl
  | cons e events ih =>
    rw [replay_cons] at h ⊢
    cases hc : a.apply e with
    | error fault => simp [hc, Except.bind] at h
    | ok c =>
      rw [hc] at h
      have hsize := (size_of_replay h).1
      rw [apply_graft hc (by omega)]
      exact ih h

end Assembly

/-! ## Floods -/

namespace Forest

variable {f g : Forest α} {t : Terrain α} {settings : Settings α} {lastLevel : α}
  {outcome : Outcome α}

/-- A flood that faults leaves no forest. -/
theorem grow_error {fault : Fault} (hrun : Flood.run t settings lastLevel = .error fault) :
    f.grow t settings lastLevel = .error fault := by
  simp [grow, hrun, bind, Except.bind]

/-- A flood into a forest with nodes answers as one into an empty forest, leaves the nodes as they are,
and puts behind them the nodes that it leaves in the empty forest, with their relatives as many places
further up. -/
theorem grow_behind (f : Forest α) (sides : List Nat) (t : Terrain α) (settings : Settings α)
    (lastLevel : α) :
    (t.Fits → ∃ outcome, Flood.run t settings lastLevel = .ok outcome) ∧
    (∀ fault, Flood.run t settings lastLevel = .error fault →
      (empty sides).grow t settings lastLevel = .error fault ∧
        f.grow t settings lastLevel = .error fault) ∧
    ∀ outcome, Flood.run t settings lastLevel = .ok outcome →
      f.size + outcome.log.countP Event.isEmit ≤ nodeLimit →
      ∃ g h, (empty sides).grow t settings lastLevel = .ok (g, outcome.result) ∧
        f.grow t settings lastLevel = .ok (h, outcome.result) ∧
        g.size = outcome.log.countP Event.isEmit ∧ h.size = f.size + g.size ∧ h.sides = f.sides ∧
        (∀ i < f.size, h.get? i = f.get? i) ∧
        ∀ i < g.size, ∃ n, g.get? i = some n ∧ h.get? (f.size + i) = some (n.shift f.size) := by
  refine ⟨fun fits => ?_, fun fault hrun => ⟨grow_error hrun, grow_error hrun⟩,
    fun outcome hrun room => ?_⟩
  · exact exists_outcome fits settings lastLevel
  · obtain ⟨b, hreplay, hsize⟩ := exists_replay_of_run hrun (by omega)
    -- the replay that is known starts at the sides of the terrain; both others are grafts of it
    have hgraft : ∀ base : Forest α, base.size ≤ f.size →
        base.grow t settings lastLevel = .ok (base.graft b.forest, outcome.result) := by
      intro base hbase
      have hbehind := Assembly.replay_graft base hreplay (by omega)
      rw [Assembly.graft_ofForest] at hbehind
      exact grow_eq hrun hbehind
    have hempty : (empty sides : Forest α).size = 0 := rfl
    refine ⟨(empty sides).graft b.forest, f.graft b.forest, hgraft _ (by omega),
      hgraft _ (Nat.le_refl _), ?_, ?_, rfl, fun i hi => get?_graft_old hi, fun i hi => ?_⟩
    · rw [size_graft, hempty, hsize, Nat.zero_add]
    · rw [size_graft, size_graft, hempty, Nat.zero_add]
    · rw [size_graft, hempty, Nat.zero_add] at hi
      obtain ⟨n, hn⟩ := exists_get? hi
      refine ⟨n, ?_, ?_⟩
      · have hnew := get?_graft_new (empty sides) b.forest i
        rw [hempty, Nat.zero_add, hn, Option.map_some, Node.shift_zero] at hnew
        exact hnew
      · rw [get?_graft_new, hn, Option.map_some]

/-- The forest of one cell. -/
def lone : Forest Nat := ⟨[1], #[⟨0, 1, ⟨1, #[0]⟩, none, []⟩], by simp⟩

/-- A plane with more cells than there are words. -/
def vast : Terrain Nat := ⟨[0x100000000, 0x100000000], [0, 0], fun _ => some 0⟩

/-- The four nodes that a flood leaves before it is stranded stand behind the one that was there, and
a plane with too many cells is refused in both forests. -/
theorem grow_behind_twins : twins.Fits ∧
    (∃ g h, (empty [4]).grow twins ⟨unequal, true⟩ 5 = .ok (g, .error .aboveFloor) ∧
      lone.grow twins ⟨unequal, true⟩ 5 = .ok (h, .error .aboveFloor) ∧ g.size = 4 ∧ h.size = 5 ∧
      h.get? 0 = lone.get? 0 ∧
      ∀ i < 4, ∃ n, g.get? i = some n ∧ h.get? (1 + i) = some (n.shift 1)) ∧
    Flood.run vast ⟨unequal, true⟩ 5 = .error .overflow ∧
      lone.grow vast ⟨unequal, true⟩ 5 = .error .overflow := by
  have fits : twins.Fits := ⟨by decide, by decide⟩
  have heval : (Flood.run twins ⟨unequal, true⟩ 5).map
      (fun o => (o.result, o.log.countP Event.isEmit)) = .ok (.error .aboveFloor, 4) := by
    decide +kernel
  have hvast : Flood.run vast ⟨unequal, true⟩ 5 = .error .overflow := by
    have hvoid : (Flood.run vast ⟨unequal, true⟩ 5).map (fun _ => ()) = .error .overflow := by
      decide +kernel
    cases hrun : Flood.run vast ⟨unequal, true⟩ 5 with
    | error fault => simpa [hrun, Except.map] using hvoid
    | ok outcome => simp [hrun, Except.map] at hvoid
  obtain ⟨answers, -, behind⟩ := grow_behind lone [4] twins ⟨unequal, true⟩ 5
  obtain ⟨outcome, hrun⟩ := answers fits
  obtain ⟨hresult, hcount⟩ : outcome.result = .error .aboveFloor ∧
      outcome.log.countP Event.isEmit = 4 := by simpa [hrun, Except.map] using heval
  obtain ⟨g, h, hempty, hlone, hg, hh, -, hold, hnew⟩ :=
    behind outcome hrun (by rw [hcount]; decide)
  rw [hresult] at hempty hlone
  rw [hcount] at hg
  rw [hg] at hh hnew
  have hfault := ((grow_behind lone [4] vast ⟨unequal, true⟩ 5).2.1 .overflow hvast).2
  exact ⟨fits, ⟨g, h, hempty, hlone, hg, hh, hold 0 (by decide), hnew⟩, hvast, hfault⟩

end Forest

end LevelTree
