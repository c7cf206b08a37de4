import LevelTree.Heap
import Mathlib.Tactic.Common

/-!
# The order of a heap

A heap is ordered when no element is before its parent. Moving an element up repairs a heap that
is out of order at that element only, and moving it down one that is out of order at its children
only (`ordered_siftUp`, `ordered_siftDown`). So insertion and removal keep the order, and in an
ordered heap no element is before the first (`Ordered.not_before_first`).
-/

namespace LevelTree.Heap

variable {β : Type} {before : β → β → Bool} {s : β → Prop}

/-- On the elements of `s`, `before` is strict, and "not before" composes. -/
structure WeakOrder (before : β → β → Bool) (s : β → Prop) : Prop where
  asymm : ∀ a b, s a → s b → before a b = true → before b a = false
  trans : ∀ a b c, s a → s b → s c → before b a = false → before c b = false → before c a = false

/-- Place `j` is below place `i`. -/
def Child (i j : Nat) : Prop := j = 2 * i + 1 ∨ j = 2 * i + 2

theorem Child.lt {i j : Nat} (h : Child i j) : i < j := by
  rcases h with rfl | rfl <;> omega

/-- A place has one parent. -/
theorem Child.eq {i j : Nat} (h : Child i j) : i = (j - 1) / 2 := by
  rcases h with rfl | rfl <;> omega

theorem child_of_pos {j : Nat} (h : 0 < j) : Child ((j - 1) / 2) j := by
  rcases Nat.mod_two_eq_zero_or_one (j - 1) with hj | hj
  · exact .inl (by omega)
  · exact .inr (by omega)

/-- No element is before its parent. -/
def Ordered (before : β → β → Bool) (a : Array β) : Prop :=
  ∀ i j (hi : i < a.size) (hj : j < a.size), Child i j → before a[j] a[i] = false

/-- What may be out of order is the element at place `k` and its parent. -/
structure RisingAt (before : β → β → Bool) (a : Array β) (k : Nat) : Prop where
  except : ∀ i j (hi : i < a.size) (hj : j < a.size), Child i j → j ≠ k → before a[j] a[i] = false
  grand : ∀ i j (hi : i < a.size) (hj : j < a.size), Child i k → Child k j → before a[j] a[i] = false

/-- What may be out of order is the element at place `k` and its children. -/
structure SinkingAt (before : β → β → Bool) (a : Array β) (k : Nat) : Prop where
  except : ∀ i j (hi : i < a.size) (hj : j < a.size), Child i j → i ≠ k → before a[j] a[i] = false
  grand : ∀ i j (hi : i < a.size) (hj : j < a.size), Child i k → Child k j → before a[j] a[i] = false

theorem forall_mem_swap {a : Array β} {i j : Nat} (hi : i < a.size) (hj : j < a.size)
    (hs : ∀ b ∈ a, s b) : ∀ b ∈ a.swap i j, s b := fun b hb =>
  hs b ((Array.swap_perm hi hj).mem_iff.1 hb)

/-- An element that goes up past its parent is then out of order at most one place higher. -/
theorem RisingAt.swap (order : WeakOrder before s) {a : Array β} {k p : Nat} (hs : ∀ b ∈ a, s b)
    (hk : k < a.size) (hp : p < a.size) (hpk : Child p k) (hb : before a[k] a[p] = true)
    (h : RisingAt before a k) : RisingAt before (a.swap k p) p := by
  have hmem : ∀ i (hi : i < a.size), s a[i] := fun i hi => hs _ (Array.getElem_mem hi)
  have hkp : before a[p] a[k] = false := order.asymm _ _ (hmem k hk) (hmem p hp) hb
  have hlt : p < k := hpk.lt
  constructor
  · intro i j hi' hj' hij hjp
    have hi : i < a.size := by simpa using hi'
    have hj : j < a.size := by simpa using hj'
    rw [Array.getElem_swap, Array.getElem_swap, if_neg hjp]
    by_cases hjk : j = k
    · have hip : i = p := hij.eq.trans (hjk ▸ hpk.eq.symm)
      rw [if_pos hjk, if_neg (show i ≠ k by omega), if_pos hip]
      exact hkp
    · rw [if_neg hjk]
      by_cases hik : i = k
      · subst hik
        rw [if_pos rfl]
        exact h.grand p j hp hj hpk hij
      · rw [if_neg hik]
        by_cases hip : i = p
        · subst hip
          rw [if_pos rfl]
          exact order.trans _ _ _ (hmem k hk) (hmem i hp) (hmem j hj) hkp (h.except i j hp hj hij hjk)
        · rw [if_neg hip]
          exact h.except i j hi hj hij hjk
  · intro i j hi' hj' hip hpj
    have hi : i < a.size := by simpa using hi'
    have hj : j < a.size := by simpa using hj'
    have hip_lt : i < p := hip.lt
    have hpj_lt : p < j := hpj.lt
    rw [Array.getElem_swap, Array.getElem_swap, if_neg (show i ≠ k by omega),
      if_neg (show i ≠ p by omega)]
    have hpi : before a[p] a[i] = false := h.except i p hi hp hip (by omega)
    by_cases hjk : j = k
    · rw [if_pos hjk]
      exact hpi
    · rw [if_neg hjk, if_neg (show j ≠ p by omega)]
      exact order.trans _ _ _ (hmem i hi) (hmem p hp) (hmem j hj) hpi (h.except p j hp hj hpj hjk)

theorem ordered_siftUp (order : WeakOrder before s) {a : Array β} {k : Nat} (hs : ∀ b ∈ a, s b)
    (h : RisingAt before a k) : Ordered before (siftUp before a k) := by
  fun_induction siftUp before a k with
  | case1 a k hk hp hb ih =>
    exact ih (forall_mem_swap hk.2 hp hs)
      (h.swap order hs hk.2 hp (child_of_pos hk.1) hb)
  | case2 a k hk hp hb =>
    intro i j hi hj hij
    by_cases hjk : j = k
    · have hi' : i = (k - 1) / 2 := hjk ▸ hij.eq
      subst hjk hi'
      simpa using hb
    · exact h.except i j hi hj hij hjk
  | case3 a k hk =>
    intro i j hi hj hij
    have hlt : i < j := hij.lt
    exact h.except i j hi hj hij (by omega)

/-- The earlier of two places is one of them, and neither element is before the one there. -/
theorem earlier_spec (order : WeakOrder before s) {a : Array β} {i j : Nat} (hs : ∀ b ∈ a, s b)
    (hi : i < a.size) : ∃ h : earlier before a i j < a.size,
      (earlier before a i j = i ∨ earlier before a i j = j ∧ before a[earlier before a i j] a[i] = true) ∧
      before a[i] a[earlier before a i j] = false ∧
      ∀ hj : j < a.size, before a[j] a[earlier before a i j] = false := by
  have hmem : ∀ i (hi : i < a.size), s a[i] := fun i hi => hs _ (Array.getElem_mem hi)
  have irrefl : ∀ i (hi : i < a.size), before a[i] a[i] = false := fun i hi => by
    by_contra hc
    have := order.asymm _ _ (hmem i hi) (hmem i hi) (by simpa using hc)
    exact hc this
  by_cases hj : j < a.size
  · by_cases hb : before a[j] a[i] = true
    · have he : earlier before a i j = j := by simp [earlier, hi, hj, hb]
      simp only [he]
      exact ⟨hj, .inr ⟨trivial, hb⟩, order.asymm _ _ (hmem j hj) (hmem i hi) hb, fun _ => irrefl j hj⟩
    · have he : earlier before a i j = i := by simp [earlier, hi, hj, hb]
      simp only [he]
      exact ⟨hi, .inl trivial, irrefl i hi, fun _ => by simpa using hb⟩
  · have he : earlier before a i j = i := by simp [earlier, hj]
    simp only [he]
    exact ⟨hi, .inl trivial, irrefl i hi, fun hj' => absurd hj' hj⟩

/-- The earliest place is `k` or a child of it, its element is before the one at `k` if it is a
child, and no element at `k` or a child is before it. -/
theorem earliest_spec (order : WeakOrder before s) {a : Array β} {k : Nat} (hs : ∀ b ∈ a, s b)
    (hk : k < a.size) : ∃ h : earliest before a k < a.size,
      (earliest before a k = k ∨
        Child k (earliest before a k) ∧ before a[earliest before a k] a[k] = true) ∧
      before a[k] a[earliest before a k] = false ∧
      ∀ j (hj : j < a.size), Child k j → before a[j] a[earliest before a k] = false := by
  have hmem : ∀ i (hi : i < a.size), s a[i] := fun i hi => hs _ (Array.getElem_mem hi)
  obtain ⟨hl, hleft, hkl, hleft'⟩ := earlier_spec (j := 2 * k + 1) order hs hk
  obtain ⟨hr, hright, hlr, hright'⟩ :=
    earlier_spec (i := earlier before a k (2 * k + 1)) (j := 2 * k + 2) order hs hl
  change earliest before a k < a.size at hr
  change earliest before a k = _ ∨ earliest before a k = _ ∧ before a[earliest before a k] _ = _ at hright
  change before _ a[earliest before a k] = false at hlr
  change ∀ hj, before _ a[earliest before a k] = false at hright'
  have hke : before a[k] a[earliest before a k] = false :=
    order.trans _ _ _ (hmem _ hr) (hmem _ hl) (hmem _ hk) hlr hkl
  refine ⟨hr, ?_, hke, ?_⟩
  · rcases hright with heq | ⟨heq, hbr⟩
    · rcases hleft with hleft | ⟨hleft, hbl⟩
      · exact .inl (heq.trans hleft)
      · refine .inr ⟨.inl (heq.trans hleft), ?_⟩
        simpa only [heq] using hbl
    · refine .inr ⟨.inr heq, ?_⟩
      by_contra hc
      have hc : before a[earliest before a k] a[k] = false := by simpa using hc
      have := order.trans _ _ _ (hmem _ hl) (hmem _ hk) (hmem _ hr) hkl hc
      rw [this] at hbr
      cases hbr
  · rintro j hj (rfl | rfl)
    · exact order.trans _ _ _ (hmem _ hr) (hmem _ hl) (hmem _ hj) hlr (hleft' hj)
    · exact hright' hj

/-- An element that goes down past its earlier child is then out of order at most one place lower. -/
theorem SinkingAt.swap (order : WeakOrder before s) {a : Array β} {k m : Nat} (hs : ∀ b ∈ a, s b)
    (hk : k < a.size) (hm : m < a.size) (hkm : Child k m) (hb : before a[m] a[k] = true)
    (hmin : ∀ j (hj : j < a.size), Child k j → before a[j] a[m] = false)
    (h : SinkingAt before a k) : SinkingAt before (a.swap k m) m := by
  have hmem : ∀ i (hi : i < a.size), s a[i] := fun i hi => hs _ (Array.getElem_mem hi)
  have hkm' : before a[k] a[m] = false := order.asymm _ _ (hmem m hm) (hmem k hk) hb
  have hlt : k < m := hkm.lt
  constructor
  · intro i j hi' hj' hij him
    have hi : i < a.size := by simpa using hi'
    have hj : j < a.size := by simpa using hj'
    rw [Array.getElem_swap, Array.getElem_swap]
    by_cases hik : i = k
    · subst hik
      rw [if_pos rfl, if_neg (Nat.ne_of_gt hij.lt)]
      by_cases hjm : j = m
      · rw [if_pos hjm]
        exact hkm'
      · rw [if_neg hjm]
        exact hmin j hj hij
    · rw [if_neg hik, if_neg him]
      by_cases hjk : j = k
      · subst hjk
        rw [if_pos rfl]
        exact h.grand i m hi hm hij hkm
      · have hjm : j ≠ m := fun hjm => hik (hij.eq.trans (hjm ▸ hkm.eq.symm))
        rw [if_neg hjk, if_neg hjm]
        exact h.except i j hi hj hij hik
  · intro i j hi' hj' him hmj
    have hi : i < a.size := by simpa using hi'
    have hj : j < a.size := by simpa using hj'
    have hmj_lt : m < j := hmj.lt
    have hik : i = k := him.eq.trans hkm.eq.symm
    subst hik
    rw [Array.getElem_swap, Array.getElem_swap, if_pos rfl, if_neg (show j ≠ i by omega),
      if_neg (show j ≠ m by omega)]
    exact h.except m j hm hj hmj (by omega)

theorem ordered_siftDown (order : WeakOrder before s) {a : Array β} {k : Nat} (hs : ∀ b ∈ a, s b)
    (h : SinkingAt before a k) : Ordered before (siftDown before a k) := by
  fun_induction siftDown before a k with
  | case1 a k hk ih =>
    obtain ⟨hm, hor, -, hmin⟩ := earliest_spec order hs (Nat.lt_trans hk.1 hk.2)
    obtain heq | ⟨hchild, hb⟩ := hor
    · omega
    · exact ih (forall_mem_swap _ hm hs) (h.swap order hs _ hm hchild hb hmin)
  | case2 a k hk =>
    intro i j hi hj hij
    by_cases hik : i = k
    · subst hik
      obtain ⟨hm, hor, -, hmin⟩ := earliest_spec order hs hi
      have heq : earliest before a i = i := by
        obtain heq | ⟨hchild, -⟩ := hor
        · exact heq
        · exact absurd ⟨hchild.lt, hm⟩ hk
      simpa only [heq] using hmin j hj hij
    · exact h.except i j hi hj hij hik

/-- Insertion keeps the order. -/
theorem ordered_insert (order : WeakOrder before s) {a : Array β} {b : β} (hs : ∀ c ∈ a, s c)
    (hb : s b) (h : Ordered before a) : Ordered before (insert before a b) := by
  refine ordered_siftUp (s := s) order ?_ ⟨?_, ?_⟩
  · intro c hc
    rcases Array.mem_push.1 hc with hc | rfl
    · exact hs c hc
    · exact hb
  · intro i j hi hj hij hja
    have hj : j < a.size := by simp at hj; omega
    have hi : i < a.size := Nat.lt_trans hij.lt hj
    rw [Array.getElem_push_lt hj, Array.getElem_push_lt hi]
    exact h i j hi hj hij
  · intro i j hi hj hia haj
    have hlt : a.size < j := haj.lt
    simp only [Array.size_push] at hj
    omega

/-- Taking off the first element keeps the order. -/
theorem ordered_removeFirst (order : WeakOrder before s) {a : Array β} (hs : ∀ c ∈ a, s c)
    (hpos : 0 < a.size) (h : Ordered before a) : Ordered before (removeFirst before a hpos) := by
  have hlast : a.size - 1 < a.size := by omega
  refine ordered_siftDown (s := s) order ?_ ⟨?_, ?_⟩
  · intro c hc
    obtain ⟨i, hi, rfl⟩ := Array.mem_iff_getElem.1 hc
    rw [Array.getElem_pop]
    exact forall_mem_swap hpos hlast hs _ (Array.getElem_mem _)
  · intro i j hi' hj' hij hi0
    have hi : i < a.size - 1 := by simpa using hi'
    have hj : j < a.size - 1 := by simpa using hj'
    have hlt : i < j := hij.lt
    rw [Array.getElem_pop, Array.getElem_pop, Array.getElem_swap, Array.getElem_swap,
      if_neg hi0, if_neg (show i ≠ a.size - 1 by omega), if_neg (show j ≠ 0 by omega),
      if_neg (show j ≠ a.size - 1 by omega)]
    exact h i j (by omega) (by omega) hij
  · intro i j hi hj hi0 hj0
    exact absurd hi0.lt (Nat.not_lt_zero i)

/-- In an ordered heap no element is before the first. -/
theorem Ordered.not_before_first (order : WeakOrder before s) {a : Array β} (hs : ∀ c ∈ a, s c)
    (h : Ordered before a) (hpos : 0 < a.size) : ∀ c ∈ a, before c a[0] = false := by
  have hmem : ∀ i (hi : i < a.size), s a[i] := fun i hi => hs _ (Array.getElem_mem hi)
  have all : ∀ i (hi : i < a.size), before a[i] a[0] = false := by
    intro i
    induction i using Nat.strongRecOn with
    | _ i ih =>
      intro hi
      by_cases hi0 : i = 0
      · subst hi0
        by_contra hc
        exact hc (order.asymm _ _ (hmem 0 hi) (hmem 0 hi) (by simpa using hc))
      · have hp : (i - 1) / 2 < a.size := by omega
        exact order.trans _ _ _ (hmem 0 hpos) (hmem _ hp) (hmem i hi) (ih _ (by omega) hp)
          (h _ i hp hi (child_of_pos (Nat.pos_of_ne_zero hi0)))
  intro c hc
  obtain ⟨i, hi, rfl⟩ := Array.mem_iff_getElem.1 hc
  exact all i hi

end LevelTree.Heap
