import LevelTree.Proofs.Extents
import Mathlib.Data.List.Nodup

/-!
# Walks that are interrupted

A walk over the neighbours of a position may be left at any neighbour, used for other positions, and
taken up again at the cursor where it was left. However often that happens, no step fails, and all that
it finds inside are the adjacent positions inside, each of them once and in a fixed order
(`resumed_walk`). What carries this is that the segments of a walk are runs of neighbours that lie end to
end (`Scan.segment_eq`, `Scan.resume_eq`).
-/

namespace LevelTree.Walk

/-! ## Interruptions -/

/-- A walk, and the buffer that its neighbours are written to. -/
structure Scan where
  walk : Walk
  buffer : List Nat

/-- What happens to a walk while another position is walked around. -/
inductive Use where
  /-- The cursor is set. -/
  | seek (cursor : Nat)
  /-- The next neighbour of a position is looked at, if one is left. -/
  | look (position : Position)

/-- A walk is left after some neighbours, and used otherwise. -/
structure Pause where
  steps : Nat
  uses : List Use

namespace Scan

/-- Writes the next neighbour of a position to the buffer. -/
def look (s : Scan) (p : Position) : Except Fault (Neighbor × Scan) := do
  let (n, walk) ← s.walk.nextInto p s.buffer
  return (n, ⟨walk, n.position⟩)

/-- The walk with its cursor at neighbour `cursor`. -/
def seek (s : Scan) (cursor : Nat) : Scan := { s with walk := s.walk.seek cursor }

/-- The walk after it was used for another position. -/
def use (s : Scan) : Use → Except Fault Scan
  | .seek cursor => return s.seek cursor
  | .look p => do
    if s.walk.hasNext then
      let (_, t) ← s.look p
      return t
    else return s

/-- The next neighbours of a position, as many as `steps` says or as are left. -/
def segment (s : Scan) (p : Position) : Nat → Except Fault (List Neighbor × Scan)
  | 0 => return ([], s)
  | steps + 1 => do
    if s.walk.hasNext then
      let (n, t) ← s.look p
      let (ns, u) ← t.segment p steps
      return (n :: ns, u)
    else return ([], s)

/-- The neighbours of a position from the cursor on. At each pause the cursor is saved, and it is restored
when the walk goes on; after the last pause, the walk goes on until no neighbour is left. -/
def resume (s : Scan) (p : Position) : List Pause → Except Fault (List Neighbor × Scan)
  | [] => s.segment p s.walk.bound
  | pause :: pauses => do
    let (ns, t) ← s.segment p pause.steps
    let u ← pause.uses.foldlM use t
    let (ms, v) ← (u.seek t.walk.cursor).resume p pauses
    return (ns ++ ms, v)

end Scan

/-! ## Neighbours in order -/

/-- The positions next to `p` along dimension `d` that lie inside, the one back first. -/
def along (sides : List Nat) (p : Position) (d : Nat) : List Position :=
  (if p[d]?.getD 0 = 0 then [] else [p.set d (p[d]?.getD 0 - 1)]) ++
    if p[d]?.getD 0 + 1 < sides[d]?.getD 0 then [p.set d (p[d]?.getD 0 + 1)] else []

/-- The positions next to `p` that lie inside, dimension by dimension. -/
def around (sides : List Nat) (p : Position) : List Position :=
  (List.range sides.length).flatMap (along sides p)

variable {sides : List Nat} {p q : Position} {d k : Nat}

theorem length_glance : (glance sides p k).position.length = p.length := by
  unfold glance
  split
  · split <;> simp
  · simp

/-- What lies inside among the first neighbours is found dimension by dimension. -/
theorem filter_glance (sides : List Nat) (p : Position) (n : Nat) :
    (((List.range (n * 2)).map (glance sides p)).filter (·.inside)).map (·.position) =
      (List.range n).flatMap (along sides p) := by
  induction n with
  | zero => rfl
  | succ n ih =>
    have hrange : List.range ((n + 1) * 2) = List.range (n * 2) ++ [n * 2, n * 2 + 1] := by
      rw [Nat.succ_mul, List.range_succ, List.range_succ, List.append_assoc]
      rfl
    have hback : n * 2 / 2 = n := by omega
    have hforth : (n * 2 + 1) / 2 = n := by omega
    have hodd : (n * 2 + 1) % 2 ≠ 0 := by omega
    have hpair : (([n * 2, n * 2 + 1].map (glance sides p)).filter (·.inside)).map (·.position) =
        along sides p n := by
      simp only [glance, along, List.map_cons, List.map_nil, hback, hforth, Nat.mul_mod_left, if_true,
        if_neg hodd]
      generalize p[n]?.getD 0 = x
      generalize sides[n]?.getD 0 = side
      cases x with
      | zero => by_cases hside : 1 < side <;> simp [hside]
      | succ x => by_cases hside : x + 1 + 1 < side <;> simp [hside]
    rw [hrange, List.map_append, List.filter_append, List.map_append, ih, hpair, List.range_succ,
      List.flatMap_append, List.flatMap_singleton]

/-- The positions around are those that the walk finds inside. -/
theorem mem_around_iff_glance : q ∈ around sides p ↔
    ∃ k < sides.length * 2, glance sides p k = ⟨true, q⟩ := by
  rw [around, ← filter_glance]
  simp only [List.mem_map, List.mem_filter, List.mem_range]
  constructor
  · rintro ⟨n, ⟨⟨k, hk, rfl⟩, hin⟩, rfl⟩
    exact ⟨k, hk, by rw [← hin]⟩
  · rintro ⟨k, hk, hq⟩
    exact ⟨⟨true, q⟩, ⟨⟨k, hk, hq⟩, rfl⟩, rfl⟩

/-- The positions around are the adjacent ones inside. -/
theorem mem_around_iff (hp : Extents.Inside sides p) :
    q ∈ around sides p ↔ Extents.Inside sides q ∧ Adjacent p q := by
  rw [mem_around_iff_glance]
  constructor
  · rintro ⟨k, hk, hq⟩
    have hspec := glance_spec hp hk
    rw [hq] at hspec
    exact hspec rfl
  · rintro ⟨hq, hadjacent⟩
    exact exists_glance hp hq hadjacent

/-- Along a dimension, that coordinate changes, and no other does. -/
theorem differs_along (hd : d < p.length) (hq : q ∈ along sides p d) :
    q[d]? ≠ p[d]? ∧ ∀ e, e ≠ d → q[e]? = p[e]? := by
  have hset : ∀ y, y ≠ p[d] → (p.set d y)[d]? ≠ p[d]? ∧ ∀ e, e ≠ d → (p.set d y)[e]? = p[e]? := by
    intro y hy
    exact ⟨by simp [hd, hy], fun e he => List.getElem?_set_ne (Ne.symm he)⟩
  have hget : p[d]?.getD 0 = p[d] := by simp [hd]
  simp only [along, hget, List.mem_append] at hq
  rcases hq with hq | hq
  · split at hq
    · cases hq
    · rw [List.mem_singleton.1 hq]
      exact hset _ (by omega)
  · split at hq
    · rw [List.mem_singleton.1 hq]
      exact hset _ (by omega)
    · cases hq

theorem nodup_along (hd : d < p.length) : (along sides p d).Nodup := by
  have hset : p.set d (p[d] - 1) ≠ p.set d (p[d] + 1) := by
    intro heq
    have hcoord := congrArg (·[d]?) heq
    simp only [List.getElem?_set_self hd, Option.some.injEq] at hcoord
    omega
  have hget : p[d]?.getD 0 = p[d] := by simp [hd]
  simp only [along, hget]
  split <;> split <;> simp [hset]

/-- No position is around twice. -/
theorem nodup_around (hp : Extents.Inside sides p) : (around sides p).Nodup := by
  have hlen := Extents.length_of_inside hp
  refine List.nodup_flatMap.2 ⟨fun d hd => ?_, ?_⟩
  · exact nodup_along (hlen ▸ List.mem_range.1 hd)
  · refine List.Pairwise.imp_of_mem ?_ List.nodup_range
    intro d e hd he hne q hqd hqe
    rw [List.mem_range, ← hlen] at hd he
    exact (differs_along hd hqd).1 ((differs_along he hqe).2 d hne)

/-! ## Segments -/

namespace Scan

/-- The walk goes between these sides, and its buffer has room for a position. -/
structure Ready (sides : List Nat) (s : Scan) : Prop where
  buffer : s.buffer.length = sides.length
  sides : s.walk.sides = sides

variable {s : Scan}

theorem Ready.seek (h : Ready sides s) (cursor : Nat) : Ready sides (s.seek cursor) :=
  ⟨h.buffer, h.sides⟩

theorem Ready.hasNext_iff (h : Ready sides s) :
    s.walk.hasNext = true ↔ s.walk.cursor < sides.length * 2 := by
  simp [hasNext, bound, h.sides]

section

variable (words : ∀ side ∈ sides, side < Word.limit) (few : sides.length * 2 < Word.limit)

include words few

/-- Where a neighbour is left, it is looked at, and the cursor moves on by one. -/
theorem look_eq (h : Ready sides s) (hp : Extents.Inside sides p)
    (left : s.walk.cursor < sides.length * 2) : s.look p = .ok (glance sides p s.walk.cursor,
      ⟨s.walk.seek (s.walk.cursor + 1), (glance sides p s.walk.cursor).position⟩) := by
  have hbuffer : s.buffer.length = p.length := h.buffer.trans (Extents.length_of_inside hp).symm
  have hadd : Word.add s.walk.cursor 1 = .ok (s.walk.cursor + 1) := Word.add_of_lt (by omega)
  simp [look, nextInto, hbuffer, next, hadd, h.sides, neighbor_eq hp words left, Walk.seek, bind,
    Except.bind, pure, Except.pure]

omit words few in
theorem Ready.glance (h : Ready sides s) (hp : Extents.Inside sides p) (k c : Nat) :
    Ready sides ⟨s.walk.seek c, (Walk.glance sides p k).position⟩ :=
  ⟨length_glance.trans (Extents.length_of_inside hp), h.sides⟩

/-- A segment has the neighbours from the cursor on. -/
theorem segment_eq (h : Ready sides s) (hp : Extents.Inside sides p)
    (hc : s.walk.cursor ≤ sides.length * 2) (steps : Nat) :
    ∃ k t, s.segment p steps = .ok ((List.range' s.walk.cursor k).map (glance sides p), t) ∧
      Ready sides t ∧ t.walk.cursor = s.walk.cursor + k ∧
      k = min steps (sides.length * 2 - s.walk.cursor) := by
  induction steps generalizing s with
  | zero => exact ⟨0, s, rfl, h, rfl, by omega⟩
  | succ steps ih =>
    rw [segment]
    by_cases left : s.walk.cursor < sides.length * 2
    · rw [if_pos (h.hasNext_iff.2 left), look_eq words few h hp left]
      have hready := h.glance hp s.walk.cursor (s.walk.cursor + 1)
      obtain ⟨k, t, hsegment, ht, hcursor, hk⟩ := ih hready left
      refine ⟨k + 1, t, ?_, ht, ?_, ?_⟩
      · simp only [bind, Except.bind, hsegment, pure, Except.pure]
        rfl
      · rw [hcursor]
        simp only [Walk.seek]
        omega
      · simp only [Walk.seek] at hk
        omega
    · rw [if_neg (mt h.hasNext_iff.1 left)]
      exact ⟨0, s, rfl, h, rfl, by omega⟩

/-- The uses for other positions leave a walk that can be taken up. -/
theorem exists_used (h : Ready sides s) {uses : List Use}
    (inside : ∀ q, .look q ∈ uses → Extents.Inside sides q) :
    ∃ t, uses.foldlM use s = .ok t ∧ Ready sides t := by
  induction uses generalizing s with
  | nil => exact ⟨s, rfl, h⟩
  | cons u uses ih =>
    have hrest : ∀ q, .look q ∈ uses → Extents.Inside sides q :=
      fun q hq => inside q (List.mem_cons_of_mem _ hq)
    obtain ⟨t, hstep, ht⟩ : ∃ t, s.use u = .ok t ∧ Ready sides t := by
      cases u with
      | seek cursor => exact ⟨_, rfl, h.seek cursor⟩
      | look q =>
        have hq := inside q List.mem_cons_self
        by_cases left : s.walk.cursor < sides.length * 2
        · refine ⟨_, ?_, h.glance hq s.walk.cursor (s.walk.cursor + 1)⟩
          rw [use, if_pos (h.hasNext_iff.2 left), look_eq words few h hq left]
          rfl
        · refine ⟨s, ?_, h⟩
          rw [use, if_neg (mt h.hasNext_iff.1 left)]
          rfl
    obtain ⟨v, hv, hready⟩ := ih ht hrest
    exact ⟨v, by rw [List.foldlM_cons, hstep]; exact hv, hready⟩

/-- The segments of an interrupted walk are, one behind the other, all neighbours from the cursor on. -/
theorem resume_eq (h : Ready sides s) (hp : Extents.Inside sides p)
    (hc : s.walk.cursor ≤ sides.length * 2) {pauses : List Pause}
    (inside : ∀ pause ∈ pauses, ∀ q, .look q ∈ pause.uses → Extents.Inside sides q) :
    ∃ t, s.resume p pauses = .ok ((List.range' s.walk.cursor
      (sides.length * 2 - s.walk.cursor)).map (glance sides p), t) ∧ t.walk.hasNext = false := by
  induction pauses generalizing s with
  | nil =>
    obtain ⟨k, t, hsegment, ht, hcursor, hk⟩ := segment_eq words few h hp hc s.walk.bound
    have hbound : s.walk.bound = sides.length * 2 := by rw [bound, h.sides]
    obtain rfl : k = sides.length * 2 - s.walk.cursor := by omega
    refine ⟨t, hsegment, ?_⟩
    rw [← Bool.not_eq_true, ht.hasNext_iff]
    omega
  | cons pause pauses ih =>
    obtain ⟨k, t, hsegment, ht, hcursor, hk⟩ := segment_eq words few h hp hc pause.steps
    obtain ⟨u, hused, hu⟩ := exists_used words few ht (inside pause List.mem_cons_self)
    have hseek : (u.seek t.walk.cursor).walk.cursor = s.walk.cursor + k := hcursor
    obtain ⟨v, hresume, hdone⟩ := ih (hu.seek t.walk.cursor) (by omega)
      fun later hlater => inside later (List.mem_cons_of_mem _ hlater)
    refine ⟨v, ?_, hdone⟩
    -- the segment before the pause and what follows it lie end to end
    have hjoin : List.range' s.walk.cursor k ++ List.range' (s.walk.cursor + k)
        (sides.length * 2 - (s.walk.cursor + k)) =
          List.range' s.walk.cursor (sides.length * 2 - s.walk.cursor) := by
      rw [List.range'_append_1]
      congr 1
      omega
    rw [hseek] at hresume
    simp only [resume, hsegment, hused, hresume, bind, Except.bind, pure, Except.pure]
    rw [← List.map_append, hjoin]

end

end Scan

/-- However often a walk is interrupted, it goes on until no neighbour is left and never fails. What it
finds inside are the positions that differ by one in one coordinate, each of them once, in the order of
the dimensions and back before forth; and a position that is found from another one finds that, too. -/
theorem resumed_walk (words : ∀ side ∈ sides, side < Word.limit)
    (few : sides.length * 2 < Word.limit) (hp : Extents.Inside sides p) :
    (∀ (buffer : List Nat) (pauses : List Pause), buffer.length = sides.length →
      (∀ pause ∈ pauses, ∀ q, .look q ∈ pause.uses → Extents.Inside sides q) →
        ∃ ns t, (⟨start sides, buffer⟩ : Scan).resume p pauses = .ok (ns, t) ∧
          t.walk.hasNext = false ∧
          (ns.filter (·.inside)).map (·.position) = around sides p) ∧
      (around sides p).Nodup ∧
      (∀ q, q ∈ around sides p ↔ Extents.Inside sides q ∧ Adjacent p q) ∧
      ∀ q, Extents.Inside sides q → (q ∈ around sides p ↔ p ∈ around sides q) := by
  refine ⟨fun buffer pauses hbuffer inside => ?_, nodup_around hp, fun q => mem_around_iff hp,
    fun q hq => ?_⟩
  · have hready : Scan.Ready sides ⟨start sides, buffer⟩ := ⟨hbuffer, rfl⟩
    obtain ⟨t, hresume, hdone⟩ :=
      Scan.resume_eq words few hready hp (Nat.zero_le _) inside
    refine ⟨_, t, hresume, hdone, ?_⟩
    rw [around, ← filter_glance, List.range_eq_range']
    rfl
  · rw [mem_around_iff hp, mem_around_iff hq]
    exact ⟨fun h => ⟨hp, h.2.symm⟩, fun h => ⟨hq, h.2.symm⟩⟩

/-- Two pauses, the first one after the first neighbour: the walk is used at other corners, and for a
while it stands past its end. -/
def twoPauses : List Pause :=
  [⟨1, [.seek 0, .look [0, 2], .look [0, 0]]⟩, ⟨2, [.look [1, 1], .seek 9, .look [1, 2]]⟩]

/-- A corner of a box of two by three has one neighbour back and one forth, which the walk finds across
both pauses. -/
theorem resumed_walk_corner : (∀ side ∈ [2, 3], side < Word.limit) ∧
    [2, 3].length * 2 < Word.limit ∧ Extents.Inside [2, 3] [1, 0] ∧
    (∃ ns t, (⟨start [2, 3], [7, 7]⟩ : Scan).resume [1, 0] twoPauses = .ok (ns, t) ∧
      t.walk.hasNext = false ∧ (ns.filter (·.inside)).map (·.position) = [[0, 0], [1, 1]]) ∧
    [1, 0] ∈ around [2, 3] [1, 1] := by
  have words : ∀ side ∈ [2, 3], side < Word.limit := by decide
  have few : [2, 3].length * 2 < Word.limit := by decide
  have hp : Extents.Inside [2, 3] [1, 0] := ⟨by decide, by decide, trivial⟩
  have hq : Extents.Inside [2, 3] [1, 1] := ⟨by decide, by decide, trivial⟩
  have inside : ∀ pause ∈ twoPauses, ∀ q, .look q ∈ pause.uses → Extents.Inside [2, 3] q := by
    simp [twoPauses, Extents.Inside]
  have haround : around [2, 3] [1, 0] = [[0, 0], [1, 1]] := by decide
  obtain ⟨resumes, -, -, symmetric⟩ := resumed_walk words few hp
  obtain ⟨ns, t, hresume, hdone, hns⟩ := resumes [7, 7] twoPauses rfl inside
  refine ⟨words, few, hp, ⟨ns, t, hresume, hdone, hns.trans haround⟩, ?_⟩
  exact (symmetric [1, 1] hq).1 (by rw [haround]; decide)

end LevelTree.Walk
