import LevelTree.Assembly
import LevelTree.Proofs.Region

/-!
# Replays

A replay carries out what the ledger of the same events books: its open regions stand for the
holdings, and each node of its forest has what was held at its emission (`Matches`). It succeeds as
long as the forest has room for the emissions (`Matches.replay`) and fails for want of room otherwise
(`Matches.replay_full`). Meanwhile every node that was emitted is a child of one node or referred to by
one open region (`Linked`).
-/

namespace LevelTree

open Forest

variable {ν α : Type} [DecidableEq ν] {d : Nat} {l m : Ledger ν α} {a b : Assembly ν α}
  {e : Event ν α} {events : List (Event ν α)} {name other : ν} {h k : Holding α} {r s : Region α}

/-- The node at an index has what was held at an emission. -/
structure Keeps (f : Forest α) (i : Nat) (h : Holding α) (n : Node α) : Prop where
  get : f.get? i = some n
  level : n.level = h.level
  size : n.size = h.held.length
  own : n.own = h.fresh
  listing : (f.listingAt i).Perm h.held

/-- An emission gives nodes a parent, which leaves what they keep. -/
theorem Keeps.grown {f g : Forest α} {i : Nat} {n : Node α} (hn : Keeps f i h n)
    (grown : f.Grown g r) : ∃ m, Keeps g i h m := by
  have hlisting := grown.listingAt_old (get?_lt hn.get)
  refine ⟨_, grown.old i n hn.get, ?_, ?_, ?_, hlisting ▸ hn.listing⟩
  · rw [← hn.level]
    split <;> rfl
  · rw [← hn.size]
    split <;> rfl
  · rw [← hn.own]
    split <;> rfl

/-- The open regions stand for the holdings, and the nodes have what was emitted. -/
structure Matches (d : Nat) (l : Ledger ν α) (a : Assembly ν α) : Prop where
  regions : List.Forall₂ (Entries.Under (Stands a.forest d)) l.holdings a.regions
  size : a.forest.size = l.complete.length
  nodes : ∀ i h, l.complete[i]? = some h → ∃ n, Keeps a.forest i h n

/-- Every node has one place: among the children of a node, which is its parent, or among the
references of an open region. -/
structure Linked (a : Assembly ν α) : Prop where
  places : (a.regions.flatMap (·.2.references) ++ a.forest.linked).Perm (List.range a.forest.size)
  rooted : a.forest.Rooted

omit [DecidableEq ν] in
/-- Where nothing happened, nothing is open and there are no nodes. -/
theorem matches_empty (sides : List Nat) :
    Matches d (Ledger.empty : Ledger ν α) (.ofForest (.empty sides)) where
  regions := .nil
  size := rfl
  nodes := by simp [Ledger.empty]

omit [DecidableEq ν] in
theorem linked_empty (sides : List Nat) : Linked (.ofForest (.empty sides) : Assembly ν α) where
  places := .refl _
  rooted := by simp [Rooted, Assembly.ofForest, get?, empty]

/-! ## Steps -/

namespace Assembly

variable {p : Position} {level : α}

theorem apply_add : a.apply (.add name p) = .ok b ↔
    ∃ r s, a.region name = .ok r ∧ r.add p = .ok s ∧ a.insert name s = b := by
  cases hr : a.region name with
  | error => simp [apply, hr, bind, Except.bind]
  | ok r => cases hs : r.add p <;> simp [apply, hr, hs, bind, Except.bind, pure, Except.pure]

theorem apply_raise : a.apply (.raise name level) = .ok b ↔
    ∃ r, a.region name = .ok r ∧ a.insert name (r.raise level) = b := by
  cases hr : a.region name <;> simp [apply, hr, bind, Except.bind, pure, Except.pure]

theorem apply_merge : a.apply (.merge name other) = .ok b ↔
    ∃ s r u, a.region other = .ok s ∧ (a.remove other).region name = .ok r ∧ r.merge s = .ok u ∧
      (a.remove other).insert name u = b := by
  cases hs : a.region other with
  | error => simp [apply, hs, bind, Except.bind]
  | ok s =>
    cases hr : (a.remove other).region name with
    | error => simp [apply, hs, hr, bind, Except.bind]
    | ok r => cases hu : r.merge s <;> simp [apply, hs, hr, hu, bind, Except.bind, pure, Except.pure]

theorem apply_emit : a.apply (.emit name) = .ok b ↔
    ∃ r s g, a.region name = .ok r ∧ a.forest.emit r = .ok (s, g) ∧
      { a.insert name s with forest := g } = b := by
  cases hr : a.region name with
  | error => simp [apply, hr, bind, Except.bind]
  | ok r =>
    cases hg : a.forest.emit r <;>
      simp [apply, hr, hg, bind, Except.bind, pure, Except.pure, Prod.ext_iff]

end Assembly

namespace Matches

theorem region (hm : Matches d l a) (hl : l.holding? name = some h) :
    ∃ r, a.region name = .ok r ∧ Stands a.forest d h r := by
  obtain ⟨r, hr, hstands⟩ := Entries.exists_lookup hm.regions hl
  exact ⟨r, by rw [Assembly.region, hr], hstands⟩

theorem stands (hm : Matches d l a) (hl : l.holding? name = some h) (hr : a.region name = .ok r) :
    Stands a.forest d h r := by
  obtain ⟨s, hs, hstands⟩ := hm.region hl
  obtain rfl : s = r := Except.ok.inj (hs.symm.trans hr)
  exact hstands

theorem remove (hm : Matches d l a) : Matches d (l.remove name) (a.remove name) where
  regions := Entries.forall₂_without hm.regions
  size := hm.size
  nodes := hm.nodes

theorem put (hm : Matches d l a) (hr : Stands a.forest d h r) :
    Matches d (l.put name h) (a.insert name r) where
  regions := .cons ⟨rfl, hr⟩ (Entries.forall₂_without hm.regions)
  size := hm.size
  nodes := hm.nodes

/-- An emission makes a node of what is held. -/
theorem grow (name : ν) (hd : 0 < d) (hm : Matches d l a) (hr : Stands a.forest d h r)
    {g : Forest α} (grown : a.forest.Grown g r) :
    Matches d { l.put name h.settled with complete := l.complete ++ [h] }
      { a.insert name (r.settled a.forest.size) with forest := g } := by
  constructor
  case regions =>
    refine .cons ⟨rfl, hr.settled hd grown⟩ ?_
    exact (Entries.forall₂_without hm.regions).imp fun x y hxy => ⟨hxy.1, hxy.2.grown grown⟩
  case size => simp [grown.size, hm.size]
  case nodes =>
    intro i k hk
    rcases Nat.lt_or_ge i l.complete.length with hi | hi
    · rw [List.getElem?_append_left hi] at hk
      obtain ⟨n, hn⟩ := hm.nodes i k hk
      exact hn.grown grown
    · rw [List.getElem?_append_right hi, List.getElem?_singleton] at hk
      split at hk
      next hzero =>
        obtain rfl := Option.some.inj hk
        obtain rfl : i = a.forest.size := by
          have := hm.size
          omega
        exact ⟨nodeOf r, grown.new, hr.level, hr.size, hr.pending_eq hd, hr.listing_perm hd grown⟩
      next => cases hk

/-- Where an event that the ledger books is carried out, the books agree with what comes of it. -/
theorem apply (hd : 0 < d) (hm : Matches d l a) (hl : l.apply e = some m)
    (lengths : ∀ p, e.position? = some p → p.length = d) (hb : a.apply e = .ok b) :
    Matches d m b := by
  cases e with
  | floor name level | create name level =>
    cases hb
    simp only [Ledger.apply] at hl
    split at hl
    · cases hl
      exact hm.put stands_ofLevel
    · cases hl
  | add name p =>
    obtain ⟨h, hh, rfl⟩ := Option.map_eq_some_iff.1 hl
    obtain ⟨r, s, hr, hs, rfl⟩ := Assembly.apply_add.1 hb
    exact hm.put ((hm.stands hh hr).add (lengths p rfl) hs)
  | raise name level =>
    obtain ⟨h, hh, rfl⟩ := Option.map_eq_some_iff.1 hl
    obtain ⟨r, hr, rfl⟩ := Assembly.apply_raise.1 hb
    exact hm.put (hm.stands hh hr).raise
  | merge name other =>
    obtain ⟨k, hk, hl⟩ := Option.bind_eq_some_iff.1 hl
    obtain ⟨h, hh, rfl⟩ := Option.map_eq_some_iff.1 hl
    obtain ⟨s, r, u, hs, hr, hu, rfl⟩ := Assembly.apply_merge.1 hb
    exact hm.remove.put ((hm.remove.stands hh hr).merge (hm.stands hk hs) hu)
  | emit name =>
    obtain ⟨h, hh, rfl⟩ := Option.map_eq_some_iff.1 hl
    obtain ⟨r, s, g, hr, hg, rfl⟩ := Assembly.apply_emit.1 hb
    have hstands := hm.stands hh hr
    obtain ⟨rfl, grown⟩ := grown_of_emit hstands.known hg
    exact hm.grow name hd hstands grown

/-- An event that the ledger books is carried out, if there is room. -/
theorem exists_apply (hm : Matches d l a) (hl : l.apply e = some m)
    (few : m.held.length < Word.limit) (room : m.complete.length ≤ nodeLimit) :
    ∃ b, a.apply e = .ok b := by
  cases e with
  | floor name level | create name level => exact ⟨_, rfl⟩
  | add name p =>
    obtain ⟨h, hh, rfl⟩ := Option.map_eq_some_iff.1 hl
    obtain ⟨r, hr, hstands⟩ := hm.region hh
    have hlen := Ledger.length_put l name (h.add p)
    rw [Holding.length_held_add, ← hstands.size] at hlen
    exact ⟨_, Assembly.apply_add.2
      ⟨r, _, hr, Region.add_eq_ok.2 ⟨Nat.lt_of_le_of_lt hlen few, rfl⟩, rfl⟩⟩
  | raise name level =>
    obtain ⟨h, hh, rfl⟩ := Option.map_eq_some_iff.1 hl
    obtain ⟨r, hr, -⟩ := hm.region hh
    exact ⟨_, Assembly.apply_raise.2 ⟨r, hr, rfl⟩⟩
  | merge name other =>
    obtain ⟨k, hk, hl⟩ := Option.bind_eq_some_iff.1 hl
    obtain ⟨h, hh, rfl⟩ := Option.map_eq_some_iff.1 hl
    obtain ⟨s, hs, sstands⟩ := hm.region hk
    obtain ⟨r, hr, rstands⟩ := hm.remove.region hh
    have hlen := Ledger.length_put (l.remove other) name (h.merge k)
    rw [Holding.length_held_merge, ← rstands.size, ← sstands.size] at hlen
    exact ⟨_, Assembly.apply_merge.2
      ⟨s, r, _, hs, hr, Region.merge_eq_ok.2 ⟨Nat.lt_of_le_of_lt hlen few, rfl⟩, rfl⟩⟩
  | emit name =>
    obtain ⟨h, hh, rfl⟩ := Option.map_eq_some_iff.1 hl
    obtain ⟨r, hr, hstands⟩ := hm.region hh
    have hroom : a.forest.size < nodeLimit := by
      rw [List.length_append, List.length_singleton] at room
      rw [hm.size]
      exact room
    obtain ⟨g, hemit, -⟩ := exists_grown hroom hstands.known
    exact ⟨_, Assembly.apply_emit.2 ⟨r, _, g, hr, hemit, rfl⟩⟩

/-- Without room, an event that the ledger books fails if it is an emission. -/
theorem apply_full (hm : Matches d l a) (hl : l.apply e = some m)
    (full : l.complete.length = nodeLimit) (more : nodeLimit < m.complete.length) :
    a.apply e = .error (.nodeLimit nodeLimit) := by
  have hcomplete := Ledger.length_complete hl
  cases e with
  | emit name =>
    obtain ⟨h, hh, rfl⟩ := Option.map_eq_some_iff.1 hl
    obtain ⟨r, hr, -⟩ := hm.region hh
    have hsize : a.forest.size = nodeLimit := hm.size.trans full
    simp [Assembly.apply, hr, emit_of_full (Nat.le_of_eq hsize.symm), hsize, bind, Except.bind]
  | _ => simp [Event.isEmit] at hcomplete; omega

omit [DecidableEq ν] in
theorem nodup (hm : Matches d l a) (nodup : l.names.Nodup) : (a.regions.map (·.1)).Nodup := by
  rw [← Entries.map_fst_eq hm.regions]
  exact nodup

end Matches

/-! ## Places -/

theorem Assembly.regions_insert (a : Assembly ν α) (name : ν) (r : Region α) :
    (a.insert name r).regions = (name, r) :: Entries.without a.regions name := rfl

theorem Assembly.regions_perm (nodup : (a.regions.map (·.1)).Nodup) (hr : a.region name = .ok r) :
    a.regions.Perm ((name, r) :: (a.remove name).regions) := by
  refine Entries.perm_cons_without nodup ?_
  unfold region at hr
  split at hr
  next heq => rwa [Except.ok.inj hr] at heq
  next => cases hr

namespace Linked

omit [DecidableEq ν] in
/-- A region that takes the place of others refers to the nodes that those referred to. -/
theorem replace (ha : Linked a) (hforest : b.forest = a.forest)
    (hrefs : (b.regions.flatMap (·.2.references)).Perm (a.regions.flatMap (·.2.references))) :
    Linked b where
  places := by
    rw [hforest]
    exact (hrefs.append_right _).trans ha.places
  rooted := hforest ▸ ha.rooted

theorem update (ha : Linked a) (nodup : (a.regions.map (·.1)).Nodup) (hr : a.region name = .ok r)
    (hs : s.references = r.references) : Linked (a.insert name s) := by
  refine ha.replace rfl ?_
  have hperm := (Assembly.regions_perm nodup hr).flatMap_right (·.2.references)
  rw [List.flatMap_cons, ← hs] at hperm
  exact hperm.symm

theorem create (ha : Linked a) (hname : name ∉ a.regions.map (·.1)) (hs : s.references = []) :
    Linked (a.insert name s) := by
  refine ha.replace rfl ?_
  rw [Assembly.regions_insert, Entries.without_of_not_mem hname, List.flatMap_cons, hs]
  exact .refl _

theorem merge (ha : Linked a) (nodup : (a.regions.map (·.1)).Nodup) (hs : a.region other = .ok s)
    (hr : (a.remove other).region name = .ok r) {u : Region α} (hu : r.merge s = .ok u) :
    Linked ((a.remove other).insert name u) := by
  refine ha.replace rfl ?_
  have h₁ := (Assembly.regions_perm nodup hs).flatMap_right (·.2.references)
  have h₂ := (Assembly.regions_perm (Entries.nodup_without nodup) hr).flatMap_right (·.2.references)
  have h₃ := Region.references_merge hu
  refine List.perm_iff_count.2 fun i => ?_
  have h₁ := h₁.count_eq i
  have h₂ := h₂.count_eq i
  have h₃ := h₃.count_eq i
  simp only [Assembly.insert, List.flatMap_cons, List.count_append] at h₁ h₂ h₃ ⊢
  omega

/-- The new node takes the places of the nodes that the emitted region referred to. -/
theorem emit (ha : Linked a) (nodup : (a.regions.map (·.1)).Nodup) (hr : a.region name = .ok r)
    (known : ∀ c ∈ r.references, c < a.forest.size) {g : Forest α} (grown : a.forest.Grown g r) :
    Linked { a.insert name (r.settled a.forest.size) with forest := g } := by
  have hperm := (Assembly.regions_perm nodup hr).flatMap_right (·.2.references)
  rw [List.flatMap_cons] at hperm
  have hplaces := (hperm.symm.append_right a.forest.linked).trans ha.places
  constructor
  case places =>
    rw [grown.size, List.range_succ, grown.linked_eq]
    refine List.perm_iff_count.2 fun i => ?_
    have hcount := hplaces.count_eq i
    have hsettled : (r.settled a.forest.size).references = [a.forest.size] := rfl
    simp only [Assembly.insert, List.flatMap_cons, hsettled, List.count_append] at hcount ⊢
    omega
  case rooted =>
    refine grown.rooted ha.rooted known fun c hc hlinked => ?_
    have hnodup := hplaces.nodup_iff.2 List.nodup_range
    exact (List.nodup_append.1 hnodup).2.2 c (List.mem_append_left _ hc) c hlinked rfl

/-- Every event that is carried out keeps the places. -/
theorem apply (ha : Linked a) (hm : Matches d l a) (nodup : l.names.Nodup) (hl : l.apply e = some m)
    (hb : a.apply e = .ok b) : Linked b := by
  have nodup' := hm.nodup nodup
  cases e with
  | floor name level | create name level =>
    cases hb
    refine ha.create ?_ rfl
    rw [← Entries.map_fst_eq hm.regions]
    simp only [Ledger.apply] at hl
    split at hl
    next hnone => exact Ledger.holding?_eq_none_iff.1 hnone
    next => cases hl
  | add name p =>
    obtain ⟨r, s, hr, hs, rfl⟩ := Assembly.apply_add.1 hb
    exact ha.update nodup' hr (Region.references_add hs)
  | raise name level =>
    obtain ⟨r, hr, rfl⟩ := Assembly.apply_raise.1 hb
    exact ha.update nodup' hr rfl
  | merge name other =>
    obtain ⟨s, r, u, hs, hr, hu, rfl⟩ := Assembly.apply_merge.1 hb
    exact ha.merge nodup' hs hr hu
  | emit name =>
    obtain ⟨h, hh, -⟩ := Option.map_eq_some_iff.1 hl
    obtain ⟨r, s, g, hr, hg, rfl⟩ := Assembly.apply_emit.1 hb
    have hstands := hm.stands hh hr
    obtain ⟨rfl, grown⟩ := grown_of_emit hstands.known hg
    exact ha.emit nodup' hr hstands.known grown

end Linked

/-! ## Replays -/

theorem Assembly.replay_cons (a : Assembly ν α) (e : Event ν α) (events : List (Event ν α)) :
    a.replay (e :: events) = (a.apply e).bind (·.replay events) := List.foldlM_cons

omit [DecidableEq ν] in
theorem lengths_cons (lengths : ∀ p ∈ additions (e :: events), p.length = d) :
    (∀ p, e.position? = some p → p.length = d) ∧ ∀ p ∈ additions events, p.length = d := by
  simp only [additions, List.mem_filterMap, List.mem_cons, exists_eq_or_imp] at lengths ⊢
  exact ⟨fun p hp => lengths p (.inl hp), fun p hp => lengths p (.inr hp)⟩

section Replay

variable (hd : 0 < d) (nodup : l.names.Nodup) (hm : Matches d l a) (hl : l.run events = some m)
  (lengths : ∀ p ∈ additions events, p.length = d)

include hd nodup hm hl lengths

/-- Where events that are booked are replayed, the books agree with what comes of it. -/
theorem Matches.of_replay (linked : Linked a) (hb : a.replay events = .ok b) :
    Matches d m b ∧ Linked b := by
  induction events generalizing l a with
  | nil =>
    obtain rfl : l = m := by simpa using hl
    cases hb
    exact ⟨hm, linked⟩
  | cons e events ih =>
    rw [Ledger.run_cons, Option.bind_eq_some_iff] at hl
    obtain ⟨k, hk, hl⟩ := hl
    rw [Assembly.replay_cons] at hb
    obtain ⟨first, rest⟩ := lengths_cons lengths
    cases ha : a.apply e with
    | error fault =>
      rw [ha] at hb
      cases hb
    | ok c =>
      rw [ha] at hb
      exact ih (Ledger.apply_perm nodup hk).1 (hm.apply hd hk first ha) hl rest
        (linked.apply hm nodup hk ha) hb

variable (few : m.held.length < Word.limit)

include few

/-- Events that are booked can be replayed, if there is room for the emissions. -/
theorem Matches.replay (linked : Linked a) (room : m.complete.length ≤ nodeLimit) :
    ∃ b, a.replay events = .ok b ∧ Matches d m b ∧ Linked b := by
  induction events generalizing l a with
  | nil =>
    obtain rfl : l = m := by simpa using hl
    exact ⟨a, rfl, hm, linked⟩
  | cons e events ih =>
    rw [Ledger.run_cons, Option.bind_eq_some_iff] at hl
    obtain ⟨k, hk, hl⟩ := hl
    obtain ⟨nodup', -⟩ := Ledger.apply_perm nodup hk
    have hheld := (Ledger.run_perm nodup' hl).2.1.length_eq
    have hcomplete := Ledger.length_complete_run hl
    rw [List.length_append] at hheld
    obtain ⟨first, rest⟩ := lengths_cons lengths
    obtain ⟨b, hb⟩ := hm.exists_apply hk (by omega) (by omega)
    obtain ⟨c, hc, hlast⟩ := ih nodup' (hm.apply hd hk first hb) hl rest
      (linked.apply hm nodup hk hb)
    exact ⟨c, by rw [Assembly.replay_cons, hb]; exact hc, hlast⟩

/-- Events that are booked fail at the first emission for which there is no room. -/
theorem Matches.replay_full (room : l.complete.length ≤ nodeLimit)
    (more : nodeLimit < m.complete.length) : a.replay events = .error (.nodeLimit nodeLimit) := by
  induction events generalizing l a with
  | nil =>
    obtain rfl : l = m := by simpa using hl
    omega
  | cons e events ih =>
    rw [Ledger.run_cons, Option.bind_eq_some_iff] at hl
    obtain ⟨k, hk, hl⟩ := hl
    rw [Assembly.replay_cons]
    rcases Nat.lt_or_ge nodeLimit k.complete.length with hk' | hk'
    · have hcomplete := Ledger.length_complete hk
      have hfull : l.complete.length = nodeLimit := by
        split at hcomplete <;> omega
      rw [hm.apply_full hk hfull hk']
      rfl
    · obtain ⟨nodup', -⟩ := Ledger.apply_perm nodup hk
      have hheld := (Ledger.run_perm nodup' hl).2.1.length_eq
      rw [List.length_append] at hheld
      obtain ⟨first, rest⟩ := lengths_cons lengths
      obtain ⟨b, hb⟩ := hm.exists_apply hk (by omega) hk'
      rw [hb]
      exact ih nodup' (hm.apply hd hk first hb) hl rest hk'

end Replay

end LevelTree
