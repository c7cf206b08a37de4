import LevelTree.Proofs.Mask
import LevelTree.Terrain

/-!
# Reads over writes

Grids and masks keep the values of their cells in an array, in index order, and are written to by position.
As different positions have different indices, a write is seen at its own position and nowhere else
(`held_set`), and a write outside changes nothing. So after any number of writes a position inside reads as
the value of the last write to it, or as it did at first (`reads_over_writes`).
-/

namespace LevelTree

variable {σ α β γ : Type} {e : Extents} {xs ys : Array β} {p q : Position} {i : Nat}

/-- Writes values to positions, one after the other, and collects the answers. -/
def writeAll (write : σ → Position → β → Except Fault (Bool × σ)) (s : σ) :
    List (Position × β) → Except Fault (List Bool × σ)
  | [] => return ([], s)
  | (p, v) :: ws => do
    let (answer, t) ← write s p v
    let (answers, u) ← writeAll write t ws
    return (answer :: answers, u)

/-- A write is answered by whether its position is inside. -/
def Answered (sides : List Nat) (ws : List (Position × β)) (answers : List Bool) : Prop :=
  List.Forall₂ (fun w answer => answer = true ↔ Extents.Inside sides w.1) ws answers

/-! ## Arrays over extents -/

/-- The value for a position in an array with a value for each cell. -/
def held (e : Extents) (xs : Array β) (p : Position) : Option β := (e.index? p).bind (xs[·]?)

/-- The array after a write, and the answer to the write. -/
def store (e : Extents) (xs : Array β) (p : Position) (v : β) : Bool × Array β :=
  match e.index? p with
  | some i => (true, xs.setIfInBounds i v)
  | none => (false, xs)

theorem held_of_outside (h : ¬ Extents.Inside e.sides p) : held e xs p = none := by
  rw [held, Option.not_isSome_iff_eq_none.1 (mt Extents.index?_isSome_iff.1 h), Option.bind_none]

theorem held_of_inside (hsize : xs.size = e.volume) (h : Extents.Inside e.sides p) :
    ∃ i v, e.index? p = some i ∧ xs[i]? = some v ∧ held e xs p = some v := by
  obtain ⟨i, hi⟩ := Extents.index?_eq_some h
  have hlt : i < xs.size := hsize ▸ Extents.index?_lt hi
  have hv : xs[i]? = some xs[i] := Array.getElem?_eq_getElem hlt
  exact ⟨i, xs[i], hi, hv, by rw [held, hi, Option.bind_some, hv]⟩

/-- A write is seen at its own position and nowhere else. -/
theorem held_set (hsize : xs.size = e.volume) (hi : e.index? p = some i) (v : β) (q : Position) :
    held e (xs.setIfInBounds i v) q = if q = p then some v else held e xs q := by
  have hlt : i < xs.size := hsize ▸ Extents.index?_lt hi
  by_cases hqp : q = p
  · subst hqp
    rw [held, hi, Option.bind_some, Array.getElem?_setIfInBounds_self_of_lt hlt, if_pos rfl]
  · rw [if_neg hqp, held, held]
    cases hj : e.index? q with
    | none => rfl
    | some j =>
      have hij : i ≠ j := by
        rintro rfl
        exact hqp (Extents.index?_injective hj hi)
      rw [Option.bind_some, Option.bind_some, Array.getElem?_setIfInBounds_ne hij]

theorem size_store (e : Extents) (xs : Array β) (p : Position) (v : β) :
    (store e xs p v).2.size = xs.size := by
  unfold store
  split <;> simp

theorem store_fst (e : Extents) (xs : Array β) (p : Position) (v : β) :
    (store e xs p v).1 = true ↔ Extents.Inside e.sides p := by
  rw [← Extents.index?_isSome_iff]
  unfold store
  split
  next hi => simp [hi]
  next hi => simp [hi]

theorem held_store (hsize : xs.size = e.volume) (v : β) (hq : Extents.Inside e.sides q) :
    held e (store e xs p v).2 q = if q = p then some v else held e xs q := by
  unfold store
  split
  next i hi => exact held_set hsize hi v q
  next hi =>
    have hqp : q ≠ p := by
      rintro rfl
      have hsome := Extents.index?_isSome_iff.2 hq
      simp [hi] at hsome
    rw [if_neg hqp]

theorem lookup_singleton (p q : Position) (v : β) :
    [(p, v)].lookup q = if q = p then some v else none := by
  by_cases hqp : q = p
  · rw [if_pos hqp, hqp, List.lookup_cons_self]
  · rw [if_neg hqp, List.lookup_cons, beq_false_of_ne hqp, List.lookup_nil]

/-- Where each write to a storage is a write to the array in it, all writes succeed, and a position inside
holds the value of the last of them, if there is one. -/
theorem exists_writeAll {write : σ → Position → β → Except Fault (Bool × σ)} {storage : Array β → σ}
    (step : ∀ xs p v, xs.size = e.volume → write (storage xs) p v =
      .ok ((store e xs p v).1, storage (store e xs p v).2))
    (hsize : xs.size = e.volume) (ws : List (Position × β)) :
    ∃ answers ys, writeAll write (storage xs) ws = .ok (answers, storage ys) ∧
      Answered e.sides ws answers ∧ ys.size = e.volume ∧
      ∀ p, Extents.Inside e.sides p → held e ys p = (ws.reverse.lookup p).or (held e xs p) := by
  induction ws generalizing xs with
  | nil => exact ⟨[], xs, rfl, .nil, hsize, fun p _ => rfl⟩
  | cons w ws ih =>
    obtain ⟨p, v⟩ := w
    obtain ⟨answers, ys, hrun, hanswers, hys, hheld⟩ := ih ((size_store e xs p v).trans hsize)
    refine ⟨(store e xs p v).1 :: answers, ys, ?_, ?_, hys, fun q hq => ?_⟩
    · simp only [writeAll, step xs p v hsize, hrun, bind, Except.bind, pure, Except.pure]
    · exact .cons (store_fst e xs p v) hanswers
    · -- a later write to the same position comes first in the reversed list
      rw [hheld q hq, held_store hsize v hq, List.reverse_cons, List.lookup_append, lookup_singleton,
        Option.or_assoc]
      congr 1
      split <;> rfl

/-! ## Grids and masks -/

/-- After the writes, a position inside reads as the value of the last write to it, or as the value that
it had at first if there was none, and any other position reads as `absent`. -/
structure ReadsOver (e : Extents) (initial : Nat → Option β) (ws : List (Position × β))
    (read : Position → Except Fault γ) (present : β → γ) (absent : γ) : Prop where
  inside : ∀ p, Extents.Inside e.sides p → ∃ i v, e.index? p = some i ∧ initial i = some v ∧
    read p = .ok (present ((ws.reverse.lookup p).getD v))
  outside : ∀ p, ¬ Extents.Inside e.sides p → read p = .ok absent

theorem eq_some_of_replicate {n : Nat} {v w : β} (h : (Array.replicate n v)[i]? = some w) :
    some v = some w := by
  rw [Array.getElem?_replicate] at h
  split at h
  · exact h
  · cases h

/-- What is read is what is held. -/
theorem readsOver {initial : Nat → Option β} {ws : List (Position × β)}
    {read : Position → Except Fault γ} {present : β → γ} {absent : γ} (hsize : xs.size = e.volume)
    (hinitial : ∀ i v, xs[i]? = some v → initial i = some v)
    (hheld : ∀ p, Extents.Inside e.sides p → held e ys p = (ws.reverse.lookup p).or (held e xs p))
    (hread : ∀ p, read p = .ok ((held e ys p).elim absent present)) :
    ReadsOver e initial ws read present absent where
  inside p hp := by
    obtain ⟨i, v, hi, hv, hfirst⟩ := held_of_inside hsize hp
    refine ⟨i, v, hi, hinitial i v hv, ?_⟩
    rw [hread, hheld p hp, hfirst]
    cases ws.reverse.lookup p <;> rfl
  outside p hp := by rw [hread, held_of_outside hp, Option.elim_none]

namespace Grid

variable {sides : List Nat} {g : Grid α} {cells : Array α} {initial : Nat → Option α}

/-- A grid as it is made, of an array or with the default value in each cell, and the values that it has
at first, by index. -/
inductive Begins (sides : List Nat) : (Nat → Option α) → Grid α → Prop
  | ofArray {cells : Array α} {g : Grid α} (h : ofArray sides cells = .ok g) :
      Begins sides (cells[·]?) g
  | blank [Inhabited α] {g : Grid α} (h : blank sides = .ok g) : Begins sides (fun _ => some default) g

theorem read_eq_held (g : Grid α) (p : Position) :
    g.read p = .ok ((held g.extents g.cells p).elim none some) := by
  have hat : g.at? p = held g.extents g.cells p := rfl
  rw [read_eq, hat]
  cases held g.extents g.cells p <;> rfl

/-- Writing to a grid writes to its cells. -/
theorem write_eq_store (hsize : cells.size = e.volume) (p : Position) (v : α) :
    write ⟨e, cells⟩ p v = .ok ((store e cells p v).1, ⟨e, (store e cells p v).2⟩) := by
  rw [write_eq]
  simp only [store]
  cases hi : e.index? p with
  | none => rfl
  | some i =>
    have hlt : i < cells.size := hsize ▸ Extents.index?_lt hi
    simp [get?, replace, hlt]

theorem eq_of_ofArray (h : ofArray sides cells = .ok g) :
    ∃ e, Extents.ofSides sides = .ok e ∧ cells.size = e.volume ∧ g = ⟨e, cells⟩ := by
  simp only [ofArray, bind, Except.bind, liftM, monadLift, MonadLift.monadLift] at h
  cases he : Extents.ofSides sides with
  | error fault => simp [he] at h
  | ok e =>
    simp only [he] at h
    split at h
    next hsize =>
      cases h
      exact ⟨e, rfl, hsize, rfl⟩
    next => cases h

theorem eq_of_blank [Inhabited α] (h : blank sides = .ok g) :
    ∃ e, Extents.ofSides sides = .ok e ∧ g = ⟨e, Array.replicate e.volume default⟩ := by
  simp only [blank, fill, bind, Except.bind, pure, Except.pure] at h
  split at h <;> cases h
  next e he => exact ⟨e, he, rfl⟩

/-- A grid that was made has the sides that were asked for, and as many cells as they say. -/
theorem Begins.shape (begins : g.Begins sides initial) : g.extents.sides = sides ∧ g.Full ∧
    ∀ i v, g.cells[i]? = some v → initial i = some v := by
  cases begins with
  | ofArray h =>
    obtain ⟨e, he, hsize, rfl⟩ := eq_of_ofArray h
    exact ⟨Extents.sides_ofSides he, hsize, fun i v hv => hv⟩
  | blank h =>
    obtain ⟨e, he, rfl⟩ := eq_of_blank h
    exact ⟨Extents.sides_ofSides he, Array.size_replicate, fun i v => eq_some_of_replicate⟩

end Grid

namespace Mask

variable {sides : List Nat} {m : Mask} {bits : Array Bool} {initial : Nat → Option Bool}

/-- A mask as it is made, of bits or with all of them clear, and the bits that it has at first. -/
inductive Begins (sides : List Nat) : (Nat → Option Bool) → Mask → Prop
  | ofBits {bits : Array Bool} {m : Mask} (h : ofBits sides bits = .ok m) : Begins sides (bits[·]?) m
  | blank {m : Mask} (h : blank sides = .ok m) : Begins sides (fun _ => some false) m

theorem get_eq_held (m : Mask) (p : Position) :
    m.get p = .ok ((held m.extents m.bits p).elim false id) := by
  simp only [get, Extents.indexByGrowth_eq, held, bit, bind, Except.bind, pure, Except.pure]
  cases m.extents.index? p with
  | none => rfl
  | some i => cases hbit : m.bits[i]? <;> simp [hbit]

/-- Writing to a mask writes to its bits. -/
theorem set_eq_store (hsize : bits.size = e.volume) (p : Position) (b : Bool) :
    set ⟨e, bits⟩ p b = .ok ((store e bits p b).1, ⟨e, (store e bits p b).2⟩) := by
  simp only [set, Extents.indexByGrowth_eq, store, bind, Except.bind, pure, Except.pure]
  cases hi : e.index? p with
  | none => rfl
  | some i =>
    have hlt : i < bits.size := hsize ▸ Extents.index?_lt hi
    simp [setBit, hlt, Array.setIfInBounds]

theorem eq_of_ofBits (h : ofBits sides bits = .ok m) :
    ∃ e, Extents.ofSides sides = .ok e ∧ bits.size = e.volume ∧ m = ⟨e, bits⟩ := by
  simp only [ofBits, bind, Except.bind, liftM, monadLift, MonadLift.monadLift] at h
  cases he : Extents.ofSides sides with
  | error fault => simp [he] at h
  | ok e =>
    simp only [he] at h
    split at h
    next hsize =>
      cases h
      exact ⟨e, rfl, hsize, rfl⟩
    next => cases h

theorem eq_of_blank (h : blank sides = .ok m) :
    ∃ e, Extents.ofSides sides = .ok e ∧ m = ⟨e, Array.replicate e.volume false⟩ := by
  simp only [blank, bind, Except.bind, pure, Except.pure] at h
  split at h <;> cases h
  next e he => exact ⟨e, he, rfl⟩

/-- A mask that was made has the sides that were asked for, and as many bits as they say. -/
theorem Begins.shape (begins : m.Begins sides initial) : m.extents.sides = sides ∧ m.Full ∧
    ∀ i b, m.bits[i]? = some b → initial i = some b := by
  cases begins with
  | ofBits h =>
    obtain ⟨e, he, hsize, rfl⟩ := eq_of_ofBits h
    exact ⟨Extents.sides_ofSides he, hsize, fun i b hb => hb⟩
  | blank h =>
    obtain ⟨e, he, rfl⟩ := eq_of_blank h
    exact ⟨Extents.sides_ofSides he, Array.size_replicate, fun i b => eq_some_of_replicate⟩

end Mask

/-- Any number of writes to a grid or a mask succeed, wherever they go, and are answered by whether they
lie inside. The shape stays; a position inside reads as the value of the last write to it, or as it did at
first, and a position outside reads as nothing, or as a clear bit. -/
theorem reads_over_writes (sides : List Nat) :
    (∀ (initial : Nat → Option α) (g : Grid α), g.Begins sides initial →
      ∀ ws, ∃ answers h, writeAll Grid.write g ws = .ok (answers, h) ∧ Answered sides ws answers ∧
        g.extents.sides = sides ∧ h.extents = g.extents ∧ h.cells.size = g.cells.size ∧
        ReadsOver h.extents initial ws h.read some none ∧
        ∀ p, h.read p = .ok ((Terrain.ofGrid h).level? p)) ∧
    ∀ (initial : Nat → Option Bool) (m : Mask), m.Begins sides initial →
      ∀ ws, ∃ answers n, writeAll Mask.set m ws = .ok (answers, n) ∧ Answered sides ws answers ∧
        m.extents.sides = sides ∧ n.extents = m.extents ∧ n.bits.size = m.bits.size ∧
        ReadsOver n.extents initial ws n.get id false := by
  refine ⟨fun initial g begins ws => ?_, fun initial m begins ws => ?_⟩
  · obtain ⟨rfl, hfull, hinitial⟩ := begins.shape
    obtain ⟨answers, cells, hrun, hanswers, hsize, hheld⟩ :=
      exists_writeAll (fun _ p v hsize => Grid.write_eq_store hsize p v) hfull ws
    refine ⟨answers, ⟨g.extents, cells⟩, hrun, hanswers, rfl, rfl, hsize.trans hfull.symm, ?_,
      fun p => Grid.read_eq _ p⟩
    exact readsOver hfull hinitial hheld fun p => Grid.read_eq_held _ p
  · obtain ⟨rfl, hfull, hinitial⟩ := begins.shape
    obtain ⟨answers, bits, hrun, hanswers, hsize, hheld⟩ :=
      exists_writeAll (fun _ p b hsize => Mask.set_eq_store hsize p b) hfull ws
    refine ⟨answers, ⟨m.extents, bits⟩, hrun, hanswers, rfl, rfl, hsize.trans hfull.symm, ?_⟩
    exact readsOver hfull hinitial hheld fun p => Mask.get_eq_held _ p

/-- Of two writes to a cell of a box the later one is read, and two writes outside are refused; and of two
bits that were set in a mask, one was cleared again. -/
theorem reads_over_writes_box : (∃ g : Grid Nat, g.Begins [3, 2] (#[1, 2, 3, 4, 5, 6][·]?) ∧
      ∃ h, writeAll Grid.write g [([0, 1], 9), ([3, 0], 7), ([0, 1], 8), ([2], 5)] =
          .ok ([true, false, true, false], h) ∧
        h.read [0, 1] = .ok (some 8) ∧ h.read [2, 1] = .ok (some 6) ∧ h.read [3, 0] = .ok none) ∧
    ∃ m : Mask, m.Begins [2, 2] (fun _ => some false) ∧
      ∃ n, writeAll Mask.set m [([1, 1], true), ([0, 1], true), ([1, 1], false), ([2, 0], true)] =
          .ok ([true, true, true, false], n) ∧
        n.get [0, 1] = .ok true ∧ n.get [1, 1] = .ok false ∧ n.get [2, 0] = .ok false := by
  constructor
  · have begins : Grid.Begins [3, 2] (#[1, 2, 3, 4, 5, 6][·]?)
        ⟨⟨[3, 2], 6, rfl⟩, #[1, 2, 3, 4, 5, 6]⟩ := .ofArray rfl
    obtain ⟨answers, h, hrun, -, -, hextents, -, reads, -⟩ := (reads_over_writes [3, 2]).1 _ _ begins
      [([0, 1], 9), ([3, 0], 7), ([0, 1], 8), ([2], 5)]
    have hanswers : [true, false, true, false] = answers := congrArg (·.1) (Except.ok.inj hrun)
    rw [hextents] at reads
    obtain ⟨_, _, -, -, hlater⟩ := reads.inside [0, 1] ⟨by decide, by decide, trivial⟩
    obtain ⟨i, v, hi, hv, hfirst⟩ := reads.inside [2, 1] ⟨by decide, by decide, trivial⟩
    obtain rfl : 5 = i := Option.some.inj hi
    obtain rfl : 6 = v := Option.some.inj hv
    exact ⟨_, begins, h, hanswers ▸ hrun, hlater, hfirst,
      reads.outside [3, 0] fun hinside => absurd hinside.1 (by decide)⟩
  · have begins : Mask.Begins [2, 2] (fun _ => some false)
        ⟨⟨[2, 2], 4, rfl⟩, #[false, false, false, false]⟩ := .blank rfl
    obtain ⟨answers, n, hrun, -, -, hextents, -, reads⟩ := (reads_over_writes (α := Bool) [2, 2]).2 _ _
      begins [([1, 1], true), ([0, 1], true), ([1, 1], false), ([2, 0], true)]
    have hanswers : [true, true, true, false] = answers := congrArg (·.1) (Except.ok.inj hrun)
    rw [hextents] at reads
    obtain ⟨_, _, -, -, hset⟩ := reads.inside [0, 1] ⟨by decide, by decide, trivial⟩
    obtain ⟨_, _, -, -, hcleared⟩ := reads.inside [1, 1] ⟨by decide, by decide, trivial⟩
    exact ⟨_, begins, n, hanswers ▸ hrun, hset, hcleared,
      reads.outside [2, 0] fun hinside => absurd hinside.1 (by decide)⟩

end LevelTree
