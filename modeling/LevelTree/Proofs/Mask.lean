import LevelTree.Mask
import LevelTree.Proofs.Extents
import Mathlib.Data.Bool.Count
import Mathlib.Data.List.Nodup

/-!
# The positions that a mask marks

A mask marks the positions whose bits are set. Setting the bit of an unmarked position marks that
position and no other, and leaves one clear bit less (`exists_adds`).
-/

namespace LevelTree.Mask

variable {m n : Mask} {p q : Position} {i : Nat}

/-- The position is inside, and its bit is set. -/
def Marks (m : Mask) (p : Position) : Prop := ∃ i, m.extents.index? p = some i ∧ m.bit i = true

/-- There are as many bits as cells. -/
def Full (m : Mask) : Prop := m.bits.size = m.extents.volume

/-- The mask `n` marks `p` and what `m` marks, where `m` does not mark `p`. -/
structure Adds (m n : Mask) (p : Position) : Prop where
  extents : n.extents = m.extents
  full : n.Full
  marks : ∀ q, n.Marks q ↔ q = p ∨ m.Marks q
  unset : n.countUnset + 1 = m.countUnset

/-- Reading by position tells whether the position is marked. -/
theorem get_eq_true_iff : m.get p = .ok true ↔ m.Marks p := by
  simp only [get, Extents.indexByGrowth_eq, bind, Except.bind, pure, Except.pure, Marks]
  cases m.extents.index? p <;> simp

theorem not_marks_iff (h : m.extents.index? p = some i) : ¬ m.Marks p ↔ m.bit i = false := by
  simp [Marks, h]

theorem Marks.inside (h : m.Marks p) : Extents.Inside m.extents.sides p := by
  obtain ⟨i, hi, -⟩ := h
  exact Extents.inside_of_index? hi

theorem bit_setBit {j : Nat} (h : m.setBit i true = .ok n) :
    n.bit j = true ↔ j = i ∨ m.bit j = true := by
  unfold setBit at h
  split at h
  next hi =>
    cases h
    by_cases hij : i = j
    · subst hij
      simp [bit, hi]
    · simp [bit, Array.getElem?_set_ne hi hij, Ne.symm hij]
  next => cases h

/-- A bit that is set marks its position and keeps the other marks. -/
theorem marks_setBit (hi : m.extents.index? p = some i) (h : m.setBit i true = .ok n) :
    n.Marks q ↔ q = p ∨ m.Marks q := by
  rw [Marks, extents_setBit h]
  constructor
  · rintro ⟨j, hj, hbit⟩
    rcases (bit_setBit h).1 hbit with rfl | hbit
    · exact .inl (Extents.index?_injective hj hi)
    · exact .inr ⟨j, hj, hbit⟩
  · rintro (rfl | ⟨j, hj, hbit⟩)
    · exact ⟨i, hi, (bit_setBit h).2 (.inl rfl)⟩
    · exact ⟨j, hj, (bit_setBit h).2 (.inr hbit)⟩

/-- Where there are as many bits as cells, the bit of every position inside can be set. -/
theorem exists_setBit (hfull : m.Full) (hi : m.extents.index? p = some i) :
    ∃ n, m.setBit i true = .ok n ∧ n.extents = m.extents ∧ n.Full := by
  have hlt : i < m.bits.size := by
    rw [hfull]
    exact Extents.index?_lt hi
  have hset : m.setBit i true = .ok { m with bits := m.bits.set i true } := by
    rw [setBit, dif_pos hlt]
  exact ⟨_, hset, rfl, by simpa [Full] using hfull⟩

/-- Setting the bit of an unmarked position succeeds. -/
theorem exists_adds (hfull : m.Full) (hi : m.extents.index? p = some i) (hp : ¬ m.Marks p) :
    ∃ n, m.setBit i true = .ok n ∧ m.Adds n p := by
  obtain ⟨n, hset, hextents, hn⟩ := exists_setBit hfull hi
  exact ⟨n, hset, hextents, hn, fun q => marks_setBit hi hset,
    unset_setBit hset ((not_marks_iff hi).1 hp)⟩

/-- A mask without marks exists wherever the product of the sides is a word. -/
theorem blank_spec {sides : List Nat} {v : Nat} (h : Word.product sides = .ok v) :
    ∃ m, blank sides = .ok m ∧ m.extents.sides = sides ∧ m.extents.volume = v ∧ m.Full ∧
      (∀ p, ¬ m.Marks p) ∧ m.countUnset = v := by
  have hext : Extents.ofSides sides = .ok ⟨sides, v, h⟩ := Extents.ofSides_eq h
  refine ⟨⟨⟨sides, v, h⟩, Array.replicate v false⟩, ?_, rfl, rfl, by simp [Full], ?_, ?_⟩
  · simp [blank, hext, bind, Except.bind, pure, Except.pure]
  · rintro p ⟨i, -, hbit⟩
    simp [bit, Array.getElem?_replicate] at hbit
    split at hbit <;> simp at hbit
  · simp [countUnset]

/-! ## Many positions -/

theorem exists_get (m : Mask) (p : Position) : ∃ b, m.get p = .ok b := by
  simp only [get, Extents.indexByGrowth_eq, bind, Except.bind, pure, Except.pure]
  cases m.extents.index? p <;> exact ⟨_, rfl⟩

theorem countSet_add_countUnset : m.countSet + m.countUnset = m.bits.size := by
  simp only [countSet, countUnset, ← Array.count_toList, List.count_true_add_count_false,
    Array.length_toList]

/-- The mask `n` marks the listed positions inside and what `m` marks; where these positions are inside,
unmarked and listed once, there are as many clear bits less. -/
structure AddsAll (m n : Mask) (ps : List Position) : Prop where
  extents : n.extents = m.extents
  full : n.Full
  marks : ∀ q, n.Marks q ↔ Extents.Inside m.extents.sides q ∧ q ∈ ps ∨ m.Marks q
  unset : ps.Nodup → (∀ p ∈ ps, Extents.Inside m.extents.sides p ∧ ¬ m.Marks p) →
    n.countUnset + ps.length = m.countUnset

/-- Setting by position marks the position if it is inside, and keeps the other marks. -/
theorem exists_set (hfull : m.Full) (p : Position) :
    ∃ n, (m.set p true).map (·.2) = .ok n ∧ m.AddsAll n [p] := by
  simp only [set, Extents.indexByGrowth_eq, bind, Except.bind]
  cases hi : m.extents.index? p with
  | none =>
    have houtside : ¬ Extents.Inside m.extents.sides p := by
      rw [← Extents.index?_isSome_iff, hi]
      simp
    refine ⟨m, rfl, rfl, hfull, fun q => ?_, fun _ h => absurd (h p (by simp)).1 houtside⟩
    refine ⟨.inr, fun h => h.resolve_left ?_⟩
    rintro ⟨hq, hp⟩
    exact houtside (List.mem_singleton.1 hp ▸ hq)
  | some i =>
    have hinside := Extents.inside_of_index? hi
    obtain ⟨n, hset, hextents, hn⟩ := exists_setBit hfull hi
    simp only [hset]
    refine ⟨n, rfl, hextents, hn, fun q => ?_, fun _ h => ?_⟩
    · rw [marks_setBit hi hset, List.mem_singleton]
      refine or_congr_left ⟨fun h => ⟨h ▸ hinside, h⟩, And.right⟩
    · exact unset_setBit hset ((not_marks_iff hi).1 (h p (by simp)).2)

theorem AddsAll.cons {k : Mask} {ps : List Position} (first : m.AddsAll n [p])
    (rest : n.AddsAll k ps) : m.AddsAll k (p :: ps) where
  extents := rest.extents.trans first.extents
  full := rest.full
  marks q := by
    rw [rest.marks, first.marks, first.extents, List.mem_singleton, List.mem_cons, ← or_assoc,
      ← and_or_left, or_comm (a := q ∈ ps)]
  unset nodup new := by
    obtain ⟨hp, hps⟩ := List.nodup_cons.1 nodup
    have hfirst := first.unset (List.nodup_singleton p) fun q hq => new q (by simp_all)
    have hrest := rest.unset hps fun q hq => by
      obtain ⟨hinside, hmarks⟩ := new q (List.mem_cons_of_mem _ hq)
      refine ⟨first.extents ▸ hinside, fun hmarked => ?_⟩
      rcases (first.marks q).1 hmarked with ⟨-, hqp⟩ | hmarked
      · exact hp (List.mem_singleton.1 hqp ▸ hq)
      · exact hmarks hmarked
    rw [List.length_singleton] at hfirst
    rw [List.length_cons]
    omega

/-- Any positions can be set one after the other. -/
theorem exists_addsAll (hfull : m.Full) (ps : List Position) :
    ∃ n, ps.foldlM (fun m p => (m.set p true).map (·.2)) m = .ok n ∧ m.AddsAll n ps := by
  induction ps generalizing m with
  | nil => exact ⟨m, rfl, rfl, hfull, by simp, by simp⟩
  | cons p ps ih =>
    obtain ⟨n, hset, first⟩ := exists_set hfull p
    obtain ⟨k, hrest, rest⟩ := ih first.full
    refine ⟨k, ?_, first.cons rest⟩
    rw [List.foldlM_cons, hset]
    exact hrest

end LevelTree.Mask
