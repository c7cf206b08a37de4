import LevelTree.Forest.Listing
import Mathlib.Data.List.Basic

/-!
# Nodes and their positions

The positions of a node, by its index, are its own and those of its children (`listingAt_eq`), and
this is what the forest answers (`positions_eq`). An emission adds a node, gives the nodes it refers
to a parent, and changes nothing else (`Grown`), so that the positions of the nodes stay
(`Grown.listingAt_old`).
-/

namespace LevelTree.Forest

variable {α : Type} {f g : Forest α} {r : Region α} {n : Node α} {i c : Nat}

/-! ## Listings -/

/-- The positions of the node with an index, or none where there is no such node. -/
def listingAt (f : Forest α) (i : Nat) : List Position :=
  if h : i < f.nodes.size then f.listing ⟨i, h⟩ else []

theorem get?_lt (h : f.get? i = some n) : i < f.size := (Array.getElem?_eq_some_iff.1 h).1

theorem exists_get? (h : i < f.size) : ∃ n, f.get? i = some n := ⟨_, Array.getElem?_eq_getElem h⟩

theorem node_eq_ok : f.node i = .ok n ↔ f.get? i = some n := by
  unfold node
  cases f.get? i <;> simp

/-- The children of a node were emitted before it. -/
theorem lt_of_mem_children (h : f.get? i = some n) (hc : c ∈ n.children) : c < i := by
  obtain ⟨hi, rfl⟩ := Array.getElem?_eq_some_iff.1 h
  exact f.children_lt i hi c hc

theorem map_kids (hi : i < f.nodes.size) : (f.kids ⟨i, hi⟩).map (·.1) = f.nodes[i].children := by
  simp [kids, Function.comp_def]

theorem listing_eq (hi : i < f.nodes.size) :
    listing ⟨i, hi⟩ = f.nodes[i].own ++ (f.kids ⟨i, hi⟩).reverse.flatMap listing := by
  rw [listing, List.flatMap_def]
  simp

/-- The positions of a node are its own, then those of its children from last to first. -/
theorem listingAt_eq (h : f.get? i = some n) :
    f.listingAt i = n.own ++ n.children.reverse.flatMap f.listingAt := by
  obtain ⟨hi, rfl⟩ := Array.getElem?_eq_some_iff.1 h
  have hlisting : listing = fun c : Fin f.nodes.size => f.listingAt c.1 := by
    funext c
    simp [listingAt]
  rw [listingAt, dif_pos hi, listing_eq, ← map_kids hi, ← List.map_reverse, List.flatMap_map,
    hlisting]

/-- What is gathered are the listings of the nodes to be visited. -/
theorem gather_eq (pending : List (Fin f.nodes.size)) : gather pending = pending.flatMap listing := by
  fun_induction gather pending with
  | case1 => rfl
  | case2 i pending ih =>
    have hlisting : listing i = f.nodes[i.1].own ++ (f.kids i).reverse.flatMap listing :=
      listing_eq i.2
    rw [ih, List.flatMap_append, List.flatMap_cons, hlisting, List.append_assoc]
    rfl

theorem positions_eq (h : i < f.size) : f.positions i = .ok (f.listingAt i) := by
  have hi : i < f.nodes.size := h
  rw [positions, dif_pos hi, gather_eq, listingAt, dif_pos hi]
  simp

/-! ## Emissions -/

/-- The forest `g` has a node for `r` more than `f`, which is the parent of the nodes that `r` refers
to. -/
structure Grown (f g : Forest α) (r : Region α) : Prop where
  size : g.size = f.size + 1
  old : ∀ i n, f.get? i = some n → g.get? i =
    some (if i ∈ r.references then { n with parent := some f.size } else n)
  new : g.get? f.size = some (nodeOf r)

theorem getElem?_adopt {nodes : Array (Node α)} {parent : Nat} {children : List Nat} :
    (adopt nodes parent children)[i]? = nodes[i]?.map fun n =>
      if i ∈ children then { n with parent := some parent } else n := by
  unfold adopt
  induction children generalizing nodes with
  | nil => simp
  | cons c cs ih =>
    rw [List.foldl_cons, ih, Array.getElem?_modify]
    by_cases hc : c = i
    · subst hc
      cases nodes[c]? <;> simp
    · simp [hc, Ne.symm hc]

/-- A region whose nodes exist is emitted as long as there is room. -/
theorem exists_grown (hroom : f.size < nodeLimit) (hr : ∀ c ∈ r.references, c < f.size) :
    ∃ g, f.emit r = .ok (r.settled f.size, g) ∧ Grown f g r := by
  have hindex : nodeIndex f.nodes.size = .ok f.size := by
    have hlt : f.nodes.size < nodeLimit := hroom
    simp [nodeIndex, nodeIndex?, hlt, size]
  have hr' : ∀ c ∈ r.references, c < f.nodes.size := hr
  simp only [emit, hindex, bind, Except.bind, pure, Except.pure]
  rw [dif_pos hr']
  refine ⟨_, rfl, by simp [size], fun i n hn => ?_, ?_⟩
  · have hi := get?_lt hn
    have hlt : i < (adopt f.nodes f.nodes.size r.references).size := by
      rw [size_adopt]
      exact hi
    rw [get?, Array.getElem?_push_lt hlt, ← Array.getElem?_eq_getElem hlt, getElem?_adopt]
    rw [get?] at hn
    rw [hn]
    rfl
  · have hlast : f.size = (adopt f.nodes f.nodes.size r.references).size := size_adopt.symm
    rw [get?, hlast, Array.getElem?_push_size]

/-- Without room, nothing is emitted. -/
theorem emit_of_full (hfull : nodeLimit ≤ f.size) : f.emit r = .error (.nodeLimit f.size) := by
  have hindex : nodeIndex f.nodes.size = .error (.nodeLimit f.size) := by
    have hsize : ¬ f.nodes.size < nodeLimit := Nat.not_lt_of_ge hfull
    simp [nodeIndex, nodeIndex?, hsize, size]
  simp [emit, hindex, bind, Except.bind]

theorem grown_of_emit {s : Region α} (hr : ∀ c ∈ r.references, c < f.size)
    (h : f.emit r = .ok (s, g)) : s = r.settled f.size ∧ Grown f g r := by
  rcases Nat.lt_or_ge f.size nodeLimit with hroom | hfull
  · obtain ⟨g', hemit, grown⟩ := exists_grown hroom hr
    rw [hemit, Except.ok.injEq, Prod.mk.injEq] at h
    exact ⟨h.1.symm, h.2 ▸ grown⟩
  · rw [emit_of_full hfull] at h
    cases h

/-- The positions of the nodes stay. -/
theorem Grown.listingAt_old (h : Grown f g r) (hi : i < f.size) :
    g.listingAt i = f.listingAt i := by
  induction i using Nat.strongRecOn with
  | ind i ih =>
    obtain ⟨n, hn⟩ := exists_get? hi
    have hnew := h.old i n hn
    have hchildren : ∀ c ∈ n.children, g.listingAt c = f.listingAt c := fun c hc =>
      ih c (lt_of_mem_children hn hc) (Nat.lt_trans (lt_of_mem_children hn hc) hi)
    have heq : n.children.reverse.flatMap g.listingAt = n.children.reverse.flatMap f.listingAt :=
      List.flatMap_congr fun c hc => hchildren c (List.mem_reverse.1 hc)
    rw [listingAt_eq hn, listingAt_eq hnew, ← heq]
    split <;> rfl

/-- The new node has the positions of the region and those of the nodes that it refers to. -/
theorem Grown.listingAt_new (h : Grown f g r) (hr : ∀ c ∈ r.references, c < f.size) :
    g.listingAt f.size = r.pending ++ r.references.reverse.flatMap f.listingAt := by
  have heq : r.references.reverse.flatMap g.listingAt =
      r.references.reverse.flatMap f.listingAt :=
    List.flatMap_congr fun c hc => h.listingAt_old (hr c (List.mem_reverse.1 hc))
  rw [listingAt_eq h.new, ← heq]
  rfl

/-! ## Links -/

/-- The children of the node with an index, or none where there is no such node. -/
def childrenAt (f : Forest α) (i : Nat) : List Nat := ((f.get? i).map (·.children)).getD []

/-- All nodes that are children. -/
def linked (f : Forest α) : List Nat := (List.range f.size).flatMap f.childrenAt

/-- Nodes know their parents. -/
def Rooted (f : Forest α) : Prop :=
  ∀ c n, f.get? c = some n → ∀ i, n.parent = some i ↔ c ∈ f.childrenAt i

theorem childrenAt_eq (h : f.get? i = some n) : f.childrenAt i = n.children := by
  simp [childrenAt, h]

theorem get?_eq_none (h : f.size ≤ i) : f.get? i = none := Array.getElem?_eq_none h

theorem lt_of_mem_childrenAt (h : c ∈ f.childrenAt i) : c < i ∧ i < f.size := by
  by_cases hi : i < f.size
  · obtain ⟨n, hn⟩ := exists_get? hi
    rw [childrenAt_eq hn] at h
    exact ⟨lt_of_mem_children hn h, hi⟩
  · simp [childrenAt, get?_eq_none (Nat.le_of_not_lt hi)] at h

theorem mem_linked_iff : c ∈ f.linked ↔ ∃ i, c ∈ f.childrenAt i := by
  simp only [linked, List.mem_flatMap, List.mem_range]
  exact ⟨fun ⟨i, _, hc⟩ => ⟨i, hc⟩, fun ⟨i, hc⟩ => ⟨i, (lt_of_mem_childrenAt hc).2, hc⟩⟩

theorem Grown.childrenAt_old (h : Grown f g r) (hi : i < f.size) : g.childrenAt i = f.childrenAt i := by
  obtain ⟨n, hn⟩ := exists_get? hi
  rw [childrenAt_eq hn, childrenAt_eq (h.old i n hn)]
  split <;> rfl

theorem Grown.childrenAt_new (h : Grown f g r) : g.childrenAt f.size = r.references :=
  childrenAt_eq h.new

theorem Grown.linked_eq (h : Grown f g r) : g.linked = f.linked ++ r.references := by
  rw [linked, h.size, List.range_succ, List.flatMap_append, List.flatMap_singleton, h.childrenAt_new,
    linked]
  congr 1
  exact List.flatMap_congr fun i hi => h.childrenAt_old (List.mem_range.1 hi)

/-- The new node becomes the parent of the nodes that its region refers to, which had none. -/
theorem Grown.rooted (h : Grown f g r) (hf : f.Rooted) (known : ∀ c ∈ r.references, c < f.size)
    (fresh : ∀ c ∈ r.references, c ∉ f.linked) : g.Rooted := by
  intro c n hn i
  have hmem : c ∈ g.childrenAt i ↔ (i < f.size ∧ c ∈ f.childrenAt i) ∨ i = f.size ∧ c ∈ r.references := by
    rcases Nat.lt_trichotomy i f.size with hi | rfl | hi
    · rw [h.childrenAt_old hi]
      simp [hi, Nat.ne_of_lt hi]
    · rw [h.childrenAt_new]
      simp
    · rw [childrenAt, get?_eq_none (by rw [h.size]; exact hi)]
      simp [Nat.not_lt_of_gt hi, Nat.ne_of_gt hi]
  rw [hmem]
  by_cases hc : c < f.size
  · obtain ⟨m, hm⟩ := exists_get? hc
    have hold := h.old c m hm
    obtain rfl : n = if c ∈ r.references then { m with parent := some f.size } else m :=
      Option.some.inj (hn.symm.trans hold)
    by_cases href : c ∈ r.references
    · have hnone : ∀ i, c ∉ f.childrenAt i := fun i hi => fresh c href (mem_linked_iff.2 ⟨i, hi⟩)
      simp [href, hnone, eq_comm]
    · rw [if_neg href, hf c m hm]
      simp only [href, and_false, or_false]
      exact ⟨fun hi => ⟨(lt_of_mem_childrenAt hi).2, hi⟩, And.right⟩
  · have hlast : c = f.size := by
      have := get?_lt hn
      have := h.size
      omega
    subst hlast
    obtain rfl : nodeOf r = n := Option.some.inj (h.new.symm.trans hn)
    have hnone : ∀ i, f.size ∉ f.childrenAt i := fun i hi => by
      have := lt_of_mem_childrenAt hi
      omega
    have hnot : f.size ∉ r.references := fun href => Nat.lt_irrefl _ (known _ href)
    simp [nodeOf, hnone, hnot]

end LevelTree.Forest
