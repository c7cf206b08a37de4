import LevelTree.Grid
import LevelTree.Proofs.Extents

/-!
# Numbered cells

The cells of a grid are numbered: its positions inside and the numbers below its size go into each other
by indexing and locating, and no computation leaves the words (`numbering`). All that is asked for is that
the product of the sides, taken from left to right, is a word, so that a side may be zero and hide what
follows it.
-/

namespace LevelTree

namespace Extents

variable {sides : List Nat} {p q : Position} {i v : Nat} {buffer : List Nat}

/-- Every stride is a word, since the product passes through all of them. -/
theorem stride_lt {stride : Nat} (h : Word.productFrom stride sides = .ok v)
    (hstride : stride < Word.limit) : ∀ s ∈ stridesFrom stride sides, s < Word.limit := by
  induction sides generalizing stride with
  | nil => simp [stridesFrom]
  | cons side sides ih =>
    obtain ⟨hfit, hrest⟩ := Word.productFrom_cons.1 h
    intro s hs
    rcases List.mem_cons.1 hs with rfl | hs
    · exact hstride
    · exact ih hrest hfit s hs

/-! ## Locating -/

/-- Every number below the product of the sides is an index. -/
theorem exists_horner (h : i < Word.plainProduct sides) : ∃ p, horner sides p = some i := by
  induction sides generalizing i with
  | nil =>
    obtain rfl : i = 0 := Nat.lt_one_iff.1 h
    exact ⟨[], rfl⟩
  | cons side sides ih =>
    rw [Word.plainProduct] at h
    have hside : 0 < side := Nat.pos_of_mul_pos_right (Nat.zero_lt_of_lt h)
    obtain ⟨ps, hps⟩ := ih (Nat.div_lt_of_lt_mul h)
    refine ⟨i % side :: ps, ?_⟩
    rw [horner, if_pos (Nat.mod_lt i hside), hps, Option.map_some, Nat.mod_add_div]

/-- Remainders and quotients by the sides take an index apart. -/
theorem locateIn_eq (h : horner sides p = some i) (hbuffer : buffer.length = sides.length) :
    locateIn sides i buffer = .ok p := by
  induction sides generalizing p i buffer with
  | nil =>
    obtain rfl := List.length_eq_zero_iff.1 hbuffer
    cases p with
    | nil => rfl
    | cons => cases h
  | cons side sides ih =>
    obtain ⟨b, rest, rfl⟩ := List.exists_cons_of_length_eq_add_one hbuffer
    cases p with
    | nil => cases h
    | cons x xs =>
      simp only [horner, Option.ite_none_right_eq_some, Option.map_eq_some_iff] at h
      obtain ⟨hx, j, hj, rfl⟩ := h
      have hside : side ≠ 0 := Nat.ne_of_gt (Nat.zero_lt_of_lt hx)
      have hmod : Word.mod (x + side * j) side = .ok x := by
        rw [Word.mod, if_neg hside, Nat.add_mul_mod_self_left, Nat.mod_eq_of_lt hx]
      have hdiv : Word.div (x + side * j) side = .ok j := by
        rw [Word.div, if_neg hside, Nat.add_mul_div_left _ _ (Nat.pos_of_ne_zero hside),
          Nat.div_eq_of_lt hx, Nat.zero_add]
      have hrest := ih hj (Nat.succ.inj hbuffer)
      simp only [locateIn, hmod, hdiv, hrest, bind, Except.bind, pure, Except.pure]

/-- The positions inside and the numbers below `size` go into each other, and all that computes an index
agrees on it. -/
structure Numbered (e : Extents) (size : Nat) : Prop where
  /-- With the strides of all dimensions or with a growing one, every position has an answer, and it is an
  index if there are as many coordinates as sides, each below its own. -/
  index : ∀ p, ∃ i?, e.indexByStrides p = .ok i? ∧ e.indexByGrowth p = .ok i? ∧
    (i?.isSome ↔ p.length = e.sides.length ∧
      ∀ (d x side : Nat), p[d]? = some x → e.sides[d]? = some side → x < side)
  stride : ∀ s ∈ stridesFrom 1 e.sides, s < Word.limit
  lt : ∀ p i, e.indexByStrides p = .ok (some i) → i < size
  injective : ∀ p q i, e.indexByStrides p = .ok (some i) → e.indexByStrides q = .ok (some i) → p = q
  /-- The position that is located has the index that was asked for. -/
  index_locate : ∀ i < size, ∀ buffer, buffer.length = e.sides.length →
    ∃ p, e.locate i buffer = .ok p ∧ e.indexByStrides p = .ok (some i)
  /-- A position is located by its index. -/
  locate_index : ∀ p i, e.indexByStrides p = .ok (some i) →
    ∀ buffer, buffer.length = e.sides.length → e.locate i buffer = .ok p

theorem numbered (e : Extents) : e.Numbered e.volume where
  index p := by
    refine ⟨e.index? p, indexByStrides_eq e p, indexByGrowth_eq e p, ?_⟩
    rw [index?_isSome_iff, inside_iff]
  stride := stride_lt e.volume_eq (by decide)
  lt p i hp := by
    rw [indexByStrides_eq, Except.ok.injEq] at hp
    exact index?_lt hp
  injective p q i hp hq := by
    rw [indexByStrides_eq, Except.ok.injEq] at hp hq
    exact index?_injective hp hq
  index_locate i hi buffer hbuffer := by
    rw [e.volume_eq_plainProduct] at hi
    obtain ⟨p, hp⟩ := exists_horner hi
    exact ⟨p, locateIn_eq hp hbuffer, (indexByStrides_eq e p).trans (congrArg _ hp)⟩
  locate_index p i hp buffer hbuffer := by
    rw [indexByStrides_eq, Except.ok.injEq] at hp
    exact locateIn_eq hp hbuffer

end Extents

namespace Grid

variable {α : Type} {sides : List Nat} {v : Nat} {g : Grid α}

/-! ## Making grids -/

/-- The grid has these sides: its cells were given, are all alike, or hold the default value. -/
inductive Over (sides : List Nat) (g : Grid α) : Prop
  | ofArray (cells : Array α) (h : ofArray sides cells = .ok g)
  | blank [Inhabited α] (h : blank sides = .ok g)
  | fill (value : α) (h : fill sides value = .ok g)

theorem ofArray_eq (hv : Word.product sides = .ok v) {cells : Array α} (hsize : cells.size = v) :
    ofArray sides cells = .ok ⟨⟨sides, v, hv⟩, cells⟩ := by
  simp [ofArray, Extents.ofSides_eq hv, hsize, bind, Except.bind, pure, Except.pure, liftM, monadLift,
    MonadLift.monadLift]

theorem fill_eq (hv : Word.product sides = .ok v) (value : α) :
    fill sides value = .ok ⟨⟨sides, v, hv⟩, Array.replicate v value⟩ := by
  simp [fill, Extents.ofSides_eq hv, bind, Except.bind, pure, Except.pure]

theorem blank_eq [Inhabited α] (hv : Word.product sides = .ok v) :
    blank sides = .ok (⟨⟨sides, v, hv⟩, Array.replicate v default⟩ : Grid α) := fill_eq hv default

/-- However a grid was made, it has the sides and as many cells as their product says. -/
theorem Over.shape (made : Over sides g) (hv : Word.product sides = .ok v) :
    g.extents = ⟨sides, v, hv⟩ ∧ g.cells.size = v := by
  cases made with
  | ofArray cells h =>
    by_cases hsize : cells.size = v
    · rw [ofArray_eq hv hsize] at h
      cases h
      exact ⟨rfl, hsize⟩
    · simp [Grid.ofArray, Extents.ofSides_eq hv, hsize, bind, Except.bind, liftM, monadLift,
        MonadLift.monadLift, throw, throwThe, MonadExceptOf.throw] at h
  | blank h =>
    rw [blank_eq hv] at h
    cases h
    exact ⟨rfl, Array.size_replicate⟩
  | fill value h =>
    rw [fill_eq hv] at h
    cases h
    exact ⟨rfl, Array.size_replicate⟩

/-- Over sides whose product from left to right is a word there are grids of every kind, and the cells of
each of them are numbered. -/
theorem numbering (hv : Word.product sides = .ok v) :
    (∀ cells : Array α, cells.size = v → ∃ g, ofArray sides cells = .ok g) ∧
      (∀ value : α, ∃ g, fill sides value = .ok g) ∧
      (∀ _ : Inhabited α, ∃ g : Grid α, blank sides = .ok g) ∧
      ∀ g : Grid α, Over sides g →
        g.extents.sides = sides ∧ g.cells.size = v ∧ g.extents.Numbered g.cells.size := by
  refine ⟨fun cells hsize => ⟨_, ofArray_eq hv hsize⟩, fun value => ⟨_, fill_eq hv value⟩,
    fun _ => ⟨_, blank_eq hv⟩, fun g made => ?_⟩
  obtain ⟨hextents, hsize⟩ := made.shape hv
  have hnumbered : g.extents.Numbered v := by
    rw [hextents]
    exact Extents.numbered ⟨sides, v, hv⟩
  exact ⟨by rw [hextents], hsize, hsize.symm ▸ hnumbered⟩

/-- The last cell of a box is located by its index; and over sides of which the first is zero there is a
grid without cells, although the other sides have no product that is a word. -/
theorem numbering_box : Word.product [4, 3, 2] = .ok 24 ∧
    (∃ g : Grid Nat, fill [4, 3, 2] 7 = .ok g ∧ Over [4, 3, 2] g ∧ g.cells.size = 24 ∧
      g.extents.indexByStrides [3, 2, 1] = .ok (some 23) ∧
        g.extents.locate 23 [9, 9, 9] = .ok [3, 2, 1]) ∧
    Word.product [0, 0x10000000000, 0x10000000000] = .ok 0 ∧
    ∃ g : Grid Nat, ofArray [0, 0x10000000000, 0x10000000000] #[] = .ok g ∧ g.cells.size = 0 ∧
      g.extents.indexByGrowth [0, 1, 1] = .ok none := by
  have hbox : Word.product [4, 3, 2] = .ok 24 := rfl
  have hflat : Word.product [0, 0x10000000000, 0x10000000000] = .ok 0 := rfl
  obtain ⟨-, hfill, -, hover⟩ := numbering (α := Nat) hbox
  obtain ⟨g, hg⟩ := hfill 7
  obtain ⟨hsides, hsize, hnumbered⟩ := hover g (.fill 7 hg)
  have hindex : g.extents.indexByStrides [3, 2, 1] = .ok (some 23) := by
    rw [fill_eq hbox] at hg
    cases hg
    rfl
  have hlocate := hnumbered.locate_index [3, 2, 1] 23 hindex [9, 9, 9] (by rw [hsides]; rfl)
  obtain ⟨harray, -, -, hover'⟩ := numbering (α := Nat) hflat
  obtain ⟨g', hg'⟩ := harray #[] rfl
  obtain ⟨hsides', hsize', hnumbered'⟩ := hover' g' (.ofArray #[] hg')
  obtain ⟨i?, -, hgrowth, hsome⟩ := hnumbered'.index [0, 1, 1]
  have hnone : i? = none := by
    rw [← Option.not_isSome_iff_eq_none, hsome, hsides']
    exact fun h => Nat.not_lt_zero 0 (h.2 0 0 0 rfl rfl)
  exact ⟨hbox, ⟨g, hg, .fill 7 hg, hsize, hindex, hlocate⟩, hflat, g', hg', hsize', hnone ▸ hgrowth⟩

end Grid

end LevelTree
