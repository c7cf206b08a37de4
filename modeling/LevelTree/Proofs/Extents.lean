import LevelTree.Connectivity
import LevelTree.Extents.Index
import LevelTree.Walk
import Mathlib.Tactic.Common

/-!
# Positions inside of the sides

Different positions inside have different indices (`index?_injective`). The walk over the
neighbours of a position inside never fails, and what it finds inside is exactly what is adjacent
(`neighbor_spec`, `exists_neighbor`).
-/

namespace LevelTree

namespace Word

theorem plainProduct_pos {ns : List Nat} (positive : 0 ∉ ns) : 0 < plainProduct ns := by
  induction ns with
  | nil => exact Nat.one_pos
  | cons n ns ih =>
    simp only [List.mem_cons, not_or] at positive
    exact Nat.mul_pos (Nat.pos_of_ne_zero (Ne.symm positive.1)) (ih positive.2)

/-- A side is a factor of the product of all sides. -/
theorem le_plainProduct {n : Nat} {ns : List Nat} (positive : 0 ∉ ns) (h : n ∈ ns) :
    n ≤ plainProduct ns := by
  induction ns with
  | nil => simp at h
  | cons m ms ih =>
    simp only [List.mem_cons, not_or] at positive
    rw [plainProduct]
    rcases List.mem_cons.1 h with rfl | h
    · exact Nat.le_mul_of_pos_right _ (plainProduct_pos positive.2)
    · exact Nat.le_trans (ih positive.2 h)
        (Nat.le_mul_of_pos_left _ (Nat.pos_of_ne_zero (Ne.symm positive.1)))

/-- Where no side is zero, the product of the first ones stays below that of all. -/
theorem productFrom_of_lt {acc : Nat} {ns : List Nat} (positive : 0 ∉ ns)
    (h : acc * plainProduct ns < limit) : productFrom acc ns = .ok (acc * plainProduct ns) := by
  induction ns generalizing acc with
  | nil => simp [productFrom, plainProduct]
  | cons n ns ih =>
    simp only [List.mem_cons, not_or] at positive
    rw [plainProduct, ← Nat.mul_assoc] at h ⊢
    have hle : acc * n ≤ acc * n * plainProduct ns :=
      Nat.le_mul_of_pos_right _ (plainProduct_pos positive.2)
    exact productFrom_cons.2 ⟨Nat.lt_of_le_of_lt hle h, ih positive.2 h⟩

theorem product_of_lt {ns : List Nat} (positive : 0 ∉ ns) (h : plainProduct ns < limit) :
    product ns = .ok (plainProduct ns) := by
  have hproduct := @productFrom_of_lt 1 ns positive (by simpa using h)
  rwa [Nat.one_mul] at hproduct

theorem product_pair {a b : Nat} (h : a * b < limit) (hzero : b = 0 → a = 0) :
    product [a, b] = .ok (a * b) := by
  have ha : 1 * a < limit := by
    rcases Nat.eq_zero_or_pos b with hb | hb
    · rw [hzero hb]
      decide
    · rw [Nat.one_mul]
      exact Nat.lt_of_le_of_lt (Nat.le_mul_of_pos_right a hb) h
  rw [product, productFrom_cons, productFrom_cons]
  exact ⟨ha, by rwa [Nat.one_mul], by rw [Nat.one_mul, productFrom]⟩

theorem add_of_lt {a b : Nat} (h : a + b < limit) : add a b = .ok (a + b) := add_eq_ok.2 ⟨h, rfl⟩

end Word

namespace Extents

/-- The sides of extents give the extents back. -/
theorem ofSides_sides (e : Extents) : ofSides e.sides = .ok e := by
  have hvolume := e.volume_eq
  unfold ofSides
  split
  next volume heq =>
    obtain rfl : e.volume = volume := Except.ok.inj (hvolume.symm.trans heq)
    rfl
  next fault heq => cases hvolume.symm.trans heq

theorem eq_of_sides {e f : Extents} (h : e.sides = f.sides) : e = f :=
  Except.ok.inj (e.ofSides_sides.symm.trans (h ▸ f.ofSides_sides))

/-- Sides whose product is a word make extents. -/
theorem ofSides_eq {sides : List Nat} {v : Nat} (h : Word.product sides = .ok v) :
    ofSides sides = .ok ⟨sides, v, h⟩ := ofSides_sides ⟨sides, v, h⟩

theorem horner_injective {sides : List Nat} {p q : Position} {i : Nat}
    (hp : horner sides p = some i) (hq : horner sides q = some i) : p = q := by
  induction sides generalizing p q i with
  | nil => cases p <;> cases q <;> simp_all [horner]
  | cons side sides ih =>
    cases p with
    | nil => simp [horner] at hp
    | cons x xs =>
      cases q with
      | nil => simp [horner] at hq
      | cons y ys =>
        simp only [horner, Option.ite_none_right_eq_some, Option.map_eq_some_iff] at hp hq
        obtain ⟨hx, j, hj, hxj⟩ := hp
        obtain ⟨hy, k, hk, hyk⟩ := hq
        have hxy : x = y := by
          have := congrArg (· % side) (hxj.trans hyk.symm)
          simpa [Nat.add_mul_mod_self_left, Nat.mod_eq_of_lt hx, Nat.mod_eq_of_lt hy] using this
        have hjk : j = k := by
          subst hxy
          exact Nat.eq_of_mul_eq_mul_left (by omega : 0 < side) (by omega)
        subst hjk
        rw [hxy, ih hj hk]

/-- Different positions have different indices. -/
theorem index?_injective {e : Extents} {p q : Position} {i : Nat} (hp : e.index? p = some i)
    (hq : e.index? q = some i) : p = q := horner_injective hp hq

theorem index?_eq_some {e : Extents} {p : Position} (h : Inside e.sides p) :
    ∃ i, e.index? p = some i := Option.isSome_iff_exists.1 (index?_isSome_iff.2 h)

theorem inside_of_index? {e : Extents} {p : Position} {i : Nat} (h : e.index? p = some i) :
    Inside e.sides p := index?_isSome_iff.1 (by simp [h])

/-- The zero position is inside, and its cell comes first. -/
theorem horner_origin {sides : List Nat} (positive : 0 ∉ sides) :
    horner sides (origin sides) = some 0 := by
  induction sides with
  | nil => rfl
  | cons side sides ih =>
    simp only [List.mem_cons, not_or] at positive
    have hcons : origin (side :: sides) = 0 :: origin sides := rfl
    have hpos : 0 < side := Nat.pos_of_ne_zero (Ne.symm positive.1)
    simp [hcons, horner, hpos, ih positive.2]

theorem inside_origin {sides : List Nat} (positive : 0 ∉ sides) : Inside sides (origin sides) :=
  horner_isSome_iff.1 (by simp [horner_origin positive])

/-- A position is inside when it has as many coordinates as there are sides, each below its own. -/
theorem inside_iff {sides : List Nat} {p : Position} : Inside sides p ↔ p.length = sides.length ∧
    ∀ (d x side : Nat), p[d]? = some x → sides[d]? = some side → x < side := by
  induction sides generalizing p with
  | nil => cases p <;> simp [Inside]
  | cons side sides ih =>
    cases p with
    | nil => simp [Inside]
    | cons x xs =>
      simp only [Inside, ih, List.length_cons, Nat.add_right_cancel_iff]
      constructor
      · rintro ⟨hx, hlen, h⟩
        refine ⟨hlen, fun d y s hy hs => ?_⟩
        cases d with
        | zero => simp_all
        | succ d => exact h d y s (by simpa using hy) (by simpa using hs)
      · rintro ⟨hlen, h⟩
        exact ⟨h 0 x side rfl rfl, hlen, fun d y s hy hs => h (d + 1) y s (by simpa) (by simpa)⟩

/-- A coordinate may be replaced by any other one below its side. -/
theorem inside_set {sides : List Nat} {p : Position} {d y side : Nat} (h : Inside sides p)
    (hside : sides[d]? = some side) (hy : y < side) : Inside sides (p.set d y) := by
  rw [inside_iff] at h ⊢
  refine ⟨by simpa using h.1, fun e x s hx hs => ?_⟩
  rw [List.getElem?_set] at hx
  split at hx
  next hde =>
    subst hde
    have hlt : d < p.length := h.1 ▸ (List.getElem?_eq_some_iff.1 hside).1
    simp only [hlt, if_true, Option.some.injEq] at hx
    rw [hside, Option.some.injEq] at hs
    omega
  next => exact h.2 e x s hx hs

end Extents

/-! ## Neighbours -/

/-- Adjacent positions differ by one in the coordinate that is replaced. -/
theorem Adjacent.eq_set {p q : Position} (h : Adjacent p q) : ∃ d x y : Nat, p[d]? = some x ∧
    (y = x + 1 ∨ x = y + 1) ∧ q = p.set d y := by
  obtain ⟨d, x, y, hp, hq, hxy, hrest⟩ := h
  refine ⟨d, x, y, hp, hxy, List.ext_getElem? fun e => ?_⟩
  rw [List.getElem?_set]
  split
  next hde => subst hde; rw [hq, if_pos (List.getElem?_eq_some_iff.1 hp).1]
  next hde => exact (hrest e (Ne.symm hde)).symm

theorem adjacent_set {p : Position} {d x y : Nat} (hp : p[d]? = some x)
    (hxy : y = x + 1 ∨ x = y + 1) : Adjacent p (p.set d y) := by
  have hlt : d < p.length := (List.getElem?_eq_some_iff.1 hp).1
  refine ⟨d, x, y, hp, by simp [hlt], hxy, fun e he => ?_⟩
  rw [List.getElem?_set_ne (Ne.symm he)]

namespace Walk

variable {sides : List Nat} {p q : Position} {k : Nat}

/-- Neighbour `k` of a position, with nothing checked. -/
def glance (sides : List Nat) (p : Position) (k : Nat) : Neighbor :=
  if k % 2 = 0 then
    if p[k / 2]?.getD 0 = 0 then ⟨false, p⟩
    else ⟨true, p.set (k / 2) (p[k / 2]?.getD 0 - 1)⟩
  else ⟨p[k / 2]?.getD 0 + 1 < sides[k / 2]?.getD 0, p.set (k / 2) (p[k / 2]?.getD 0 + 1)⟩

/-- A position inside has a coordinate in every dimension, and it is below the side. -/
theorem exists_coordinate {d : Nat} (hp : Extents.Inside sides p) (hd : d < sides.length) :
    ∃ x side, p[d]? = some x ∧ sides[d]? = some side ∧ x < side := by
  have hdp : d < p.length := Extents.length_of_inside hp ▸ hd
  have hside : sides[d]? = some sides[d] := List.getElem?_eq_getElem hd
  have hx : p[d]? = some p[d] := List.getElem?_eq_getElem hdp
  exact ⟨_, _, hx, hside, (Extents.inside_iff.1 hp).2 _ _ _ hx hside⟩

/-- Where the sides are words, no step of the walk leaves the words. -/
theorem neighbor_eq (hp : Extents.Inside sides p) (words : ∀ side ∈ sides, side < Word.limit)
    (hk : k < sides.length * 2) : neighbor sides k p = .ok (glance sides p k) := by
  obtain ⟨x, side, hx, hside, hlt⟩ := exists_coordinate (d := k / 2) hp (by omega)
  have hword : side < Word.limit := words _ (List.mem_of_getElem? hside)
  have hadd : Word.add x 1 = .ok (x + 1) := Word.add_of_lt (by omega)
  by_cases hback : k % 2 = 0
  · simp [neighbor, glance, hback, hx]
  · simp [neighbor, glance, hback, hx, hside, hadd, bind, Except.bind, pure, Except.pure]

/-- A neighbour that is called inside is inside and adjacent. -/
theorem glance_spec (hp : Extents.Inside sides p) (hk : k < sides.length * 2)
    (hin : (glance sides p k).inside = true) :
    Extents.Inside sides (glance sides p k).position ∧ Adjacent p (glance sides p k).position := by
  obtain ⟨x, side, hx, hside, hlt⟩ := exists_coordinate (d := k / 2) hp (by omega)
  simp only [glance, hx, hside, Option.getD_some] at hin ⊢
  by_cases hback : k % 2 = 0
  · rw [if_pos hback] at hin ⊢
    by_cases h0 : x = 0
    · simp [h0] at hin
    · rw [if_neg h0]
      exact ⟨Extents.inside_set hp hside (by omega), adjacent_set hx (.inr (by omega))⟩
  · rw [if_neg hback] at hin ⊢
    exact ⟨Extents.inside_set hp hside (by simpa using hin), adjacent_set hx (.inl rfl)⟩

/-- Every position inside that is adjacent is a neighbour. -/
theorem exists_glance (hp : Extents.Inside sides p) (hq : Extents.Inside sides q)
    (h : Adjacent p q) : ∃ k < sides.length * 2, glance sides p k = ⟨true, q⟩ := by
  obtain ⟨d, x, y, hx, hxy, rfl⟩ := h.eq_set
  have hdp : d < p.length := (List.getElem?_eq_some_iff.1 hx).1
  have hd : d < sides.length := Extents.length_of_inside hp ▸ hdp
  have hside : sides[d]? = some sides[d] := List.getElem?_eq_getElem hd
  have hy : y < sides[d] := (Extents.inside_iff.1 hq).2 d y _ (by simp [hdp]) hside
  rcases hxy with rfl | rfl
  · have hhalf : (2 * d + 1) / 2 = d := by omega
    refine ⟨2 * d + 1, by omega, ?_⟩
    rw [glance, if_neg (by omega)]
    simp [hhalf, hx, hside, hy]
  · have hhalf : 2 * d / 2 = d := by omega
    refine ⟨2 * d, by omega, ?_⟩
    rw [glance, if_pos (by omega)]
    simp [hhalf, hx]

/-- The walk finds a neighbour, and one that it calls inside is inside and adjacent. -/
theorem neighbor_spec (hp : Extents.Inside sides p) (words : ∀ side ∈ sides, side < Word.limit)
    (hk : k < sides.length * 2) : ∃ n, neighbor sides k p = .ok n ∧
      (n.inside = true → Extents.Inside sides n.position ∧ Adjacent p n.position) :=
  ⟨glance sides p k, neighbor_eq hp words hk, glance_spec hp hk⟩

/-- A neighbour that a walk calls inside is adjacent. -/
theorem adjacent_of_neighbor (h : neighbor sides k p = .ok ⟨true, q⟩) : Adjacent p q := by
  unfold neighbor at h
  split at h
  · cases h
  next x hx =>
  split at h
  · by_cases hzero : x = 0
    · simp [hzero] at h
    · rw [if_neg hzero] at h
      cases h
      exact adjacent_set hx (.inr (by omega))
  · cases hadd : Word.add x 1 with
    | error fault => simp [hadd, bind, Except.bind] at h
    | ok y =>
      obtain ⟨-, rfl⟩ := Word.add_eq_ok.1 hadd
      simp only [hadd, bind, Except.bind] at h
      split at h
      · cases h
      · simp only [pure, Except.pure, Except.ok.injEq, Neighbor.mk.injEq] at h
        exact h.2 ▸ adjacent_set hx (.inl rfl)

/-- The walk comes to every position inside that is adjacent. -/
theorem exists_neighbor (hp : Extents.Inside sides p) (hq : Extents.Inside sides q)
    (words : ∀ side ∈ sides, side < Word.limit) (h : Adjacent p q) :
    ∃ k < sides.length * 2, neighbor sides k p = .ok ⟨true, q⟩ := by
  obtain ⟨k, hk, hglance⟩ := exists_glance hp hq h
  exact ⟨k, hk, by rw [neighbor_eq hp words hk, hglance]⟩

end Walk

end LevelTree
