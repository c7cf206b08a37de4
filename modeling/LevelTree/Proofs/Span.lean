import LevelTree.Span
import Mathlib.Logic.ExistsUnique

/-!
# Divisions into spans

A length that is a word can be divided into any number of parts (`divide_eq`), and the spans follow each
other without a gap from zero to the length (`tiles_divide`). So every index lies in one of them and in no
other (`partition`). Slices by the spans can be taken, and put together they are the whole again
(`mapM_slice`).
-/

namespace LevelTree.Span

variable {α β ε : Type} {length n k lo hi : Nat} {s : Span} {spans : List Span} {xs : Array α}

/-- The spans follow each other from `lo` to `hi`. -/
def Tiles : Nat → List Span → Nat → Prop
  | lo, [], hi => lo = hi
  | lo, s :: spans, hi => s.start = lo ∧ Tiles (lo + s.length) spans hi

theorem Tiles.le (h : Tiles lo spans hi) : lo ≤ hi := by
  induction spans generalizing lo with
  | nil => exact Nat.le_of_eq h
  | cons s spans ih => exact Nat.le_trans (Nat.le_add_right _ _) (ih h.2)

theorem Tiles.concat (h : Tiles lo spans hi) {s : Span} (hs : s.start = hi) :
    Tiles lo (spans ++ [s]) (hi + s.length) := by
  induction spans generalizing lo with
  | nil =>
    obtain rfl : lo = hi := h
    exact ⟨hs, rfl⟩
  | cons r spans ih => exact ⟨h.1, ih h.2⟩

/-! ## Division -/

/-- Span `i` of `n`, with nothing checked: all are equally long, and the last has the remainder too. -/
def part (length n i : Nat) : Span where
  start := i * (length / n)
  length := if i + 1 = n then length - i * (length / n) else length / n

theorem count_pos (length parts : Nat) : 0 < count length parts := by
  unfold count
  omega

theorem start_part_le {i : Nat} (hi : i < n) : i * (length / n) ≤ length :=
  calc i * (length / n) ≤ n * (length / n) := Nat.mul_le_mul_right _ (Nat.le_of_lt hi)
    _ ≤ length := Nat.mul_div_le length n

/-- Every span of a word can be computed. -/
theorem nth_eq {i : Nat} (hi : i < n) (word : length < Word.limit) :
    nth length n (length / n) i = .ok (part length n i) := by
  have hstart : i * (length / n) ≤ length := start_part_le hi
  have hmul : Word.mul i (length / n) = .ok (i * (length / n)) :=
    Word.mul_eq_ok.2 ⟨Nat.lt_of_le_of_lt hstart word, rfl⟩
  by_cases hlast : i + 1 = n
  · simp [nth, part, hmul, hlast, Word.sub, hstart, bind, Except.bind, pure, Except.pure]
  · have hstop : i * (length / n) + length / n ≤ length := by
      rw [← Nat.succ_mul]
      exact start_part_le (by omega)
    have hadd : Word.add (i * (length / n)) (length / n) = .ok (i * (length / n) + length / n) :=
      Word.add_eq_ok.2 ⟨Nat.lt_of_le_of_lt hstop word, rfl⟩
    simp [nth, part, hmul, hlast, hadd, Word.sub, bind, Except.bind, pure, Except.pure]

/-- A computation that succeeds for each element succeeds for the list. -/
theorem mapM_eq_ok {f : α → Except ε β} {g : α → β} {as : List α}
    (h : ∀ a ∈ as, f a = .ok (g a)) : as.mapM f = .ok (as.map g) := by
  induction as with
  | nil => rfl
  | cons a as ih =>
    rw [List.mapM_cons, h a List.mem_cons_self, ih fun b hb => h b (List.mem_cons_of_mem _ hb)]
    rfl

/-- A length that is a word can be divided into any number of parts. -/
theorem divide_eq (word : length < Word.limit) (parts : Nat) : divide length parts =
    .ok ((List.range (count length parts)).map (part length (count length parts))) := by
  have hdiv : Word.div length (count length parts) = .ok (length / count length parts) := by
    rw [Word.div, if_neg (Nat.ne_of_gt (count_pos length parts))]
  simp only [divide, hdiv, bind, Except.bind]
  exact mapM_eq_ok fun i hi => nth_eq (List.mem_range.1 hi) word

/-- Before the last span, the spans are equally long. -/
theorem tiles_before (hk : k < n) :
    Tiles 0 ((List.range k).map (part length n)) (k * (length / n)) := by
  induction k with
  | zero => exact (Nat.zero_mul _).symm
  | succ k ih =>
    have hlength : (part length n k).length = length / n := if_neg (by omega)
    have htiles := (ih (by omega)).concat (s := part length n k) rfl
    rw [hlength, ← Nat.succ_mul] at htiles
    rw [List.range_succ, List.map_append]
    exact htiles

/-- The spans of a division follow each other from zero to the length. -/
theorem tiles_divide (length parts : Nat) :
    Tiles 0 ((List.range (count length parts)).map (part length (count length parts))) length := by
  obtain ⟨m, hm⟩ := Nat.exists_eq_add_of_lt (count_pos length parts)
  rw [Nat.zero_add] at hm
  rw [hm]
  have hstart : m * (length / (m + 1)) ≤ length := start_part_le (Nat.lt_succ_self m)
  have hlength : (part length (m + 1) m).length = length - m * (length / (m + 1)) := if_pos rfl
  have hbefore : Tiles 0 ((List.range m).map (part length (m + 1))) (m * (length / (m + 1))) :=
    tiles_before (Nat.lt_succ_self m)
  have htiles := hbefore.concat (s := part length (m + 1) m) rfl
  rw [hlength, Nat.add_sub_cancel' hstart] at htiles
  rw [List.range_succ, List.map_append]
  exact htiles

/-! ## One span for each index -/

theorem Tiles.le_start (h : Tiles lo spans hi) (hs : s ∈ spans) : lo ≤ s.start := by
  induction spans generalizing lo with
  | nil => cases hs
  | cons r spans ih =>
    rcases List.mem_cons.1 hs with rfl | hs
    · exact Nat.le_of_eq h.1.symm
    · exact Nat.le_trans (Nat.le_add_right _ _) (ih h.2 hs)

/-- The index lies in span `k`. -/
def Covers (spans : List Span) (k i : Nat) : Prop :=
  ∃ s, spans[k]? = some s ∧ s.start ≤ i ∧ i < s.start + s.length

/-- Spans that follow each other cover every index between their ends, and none of them twice. -/
theorem Tiles.existsUnique (h : Tiles lo spans hi) {i : Nat} (hlo : lo ≤ i) (hhi : i < hi) :
    ∃! k, Covers spans k i := by
  induction spans generalizing lo with
  | nil =>
    obtain rfl : lo = hi := h
    omega
  | cons s spans ih =>
    obtain ⟨rfl, htiles⟩ := h
    by_cases hfirst : i < s.start + s.length
    · refine ⟨0, ⟨s, rfl, hlo, hfirst⟩, ?_⟩
      rintro k ⟨r, hr, hstart, -⟩
      cases k with
      | zero => rfl
      | succ k =>
        have hlater : s.start + s.length ≤ r.start :=
          htiles.le_start (List.mem_of_getElem? (List.getElem?_cons_succ ▸ hr))
        omega
    · obtain ⟨k, ⟨r, hr, hcovers⟩, honly⟩ := ih htiles (Nat.le_of_not_lt hfirst)
      refine ⟨k + 1, ⟨r, by rwa [List.getElem?_cons_succ], hcovers⟩, ?_⟩
      rintro j ⟨q, hq, hstart, hstop⟩
      cases j with
      | zero =>
        obtain rfl : s = q := Option.some.inj hq
        exact absurd hstop hfirst
      | succ j =>
        rw [List.getElem?_cons_succ] at hq
        exact congrArg (· + 1) (honly j ⟨q, hq, hstart, hstop⟩)

/-- The last span has what the others leave. -/
theorem length_part (length n i : Nat) : (part length n i).length =
    if i + 1 = n then length / n + length % n else length / n := by
  by_cases hlast : i + 1 = n
  · have hdivision : i * (length / n) + length / n + length % n = length := by
      rw [← Nat.succ_mul, Nat.succ_eq_add_one, hlast, Nat.div_add_mod]
    rw [part, if_pos hlast, if_pos hlast]
    exact Nat.sub_eq_of_eq_add (by omega)
  · rw [part, if_neg hlast, if_neg hlast]

/-- The spans of a division, by their numbers. -/
theorem eq_part {k : Nat} (h : ((List.range n).map (part length n))[k]? = some s) :
    k < n ∧ s = part length n k := by
  rw [List.getElem?_map, Option.map_eq_some_iff] at h
  obtain ⟨j, hj, rfl⟩ := h
  obtain ⟨hlt, rfl⟩ := List.getElem?_eq_some_iff.1 hj
  rw [List.length_range] at hlt
  rw [List.getElem_range]
  exact ⟨hlt, rfl⟩

theorem count_le {parts : Nat} (h : 0 < length) : count length parts ≤ length := by
  unfold count
  omega

/-- The spans divide `length` indices into `parts`, or into as many parts as there are indices, and at
least into one. -/
structure Divides (length parts : Nat) (spans : List Span) : Prop where
  count : spans.length = min (max parts 1) (max length 1)
  /-- One more than the number of a span is a word. -/
  number : ∀ k < spans.length, Word.add k 1 = .ok (k + 1)
  tiles : Tiles 0 spans length
  once : ∀ i < length, ∃! k, Covers spans k i
  nonempty : 0 < length → ∀ s ∈ spans, 0 < s.length
  lengths : ∀ k s, spans[k]? = some s → s.length =
    if k + 1 = spans.length then length / spans.length + length % spans.length
    else length / spans.length

/-- Every length that is a word is divided without leaving the words, whatever number of parts is asked
for. The spans follow each other from zero to the length, so that each index lies in exactly one; all but
the last are equally long, the last has the remainder too, and none is empty unless all is. -/
theorem partition (length parts : Nat) (word : length < Word.limit) :
    ∃ spans, divide length parts = .ok spans ∧ Divides length parts spans := by
  have htiles := tiles_divide length parts
  refine ⟨_, divide_eq word parts, ?_⟩
  generalize hn : Span.count length parts = n at htiles ⊢
  have hcount : ((List.range n).map (part length n)).length = n := by
    rw [List.length_map, List.length_range]
  constructor
  case count => rw [hcount, ← hn, Span.count]
  case number =>
    intro k hk
    have hle : n ≤ max length 1 := by
      rw [← hn, Span.count]
      exact Nat.min_le_right _ _
    have hone : 1 < Word.limit := by decide
    exact Word.add_eq_ok.2 ⟨by omega, rfl⟩
  case tiles => exact htiles
  case once => exact fun i hi => htiles.existsUnique (Nat.zero_le i) hi
  case nonempty =>
    intro hpos s hs
    obtain ⟨k, hk⟩ := List.mem_iff_getElem?.1 hs
    obtain ⟨hlt, rfl⟩ := eq_part hk
    have hstep : 0 < length / n := Nat.div_pos (hn ▸ count_le hpos) (Nat.zero_lt_of_lt hlt)
    rw [length_part]
    split <;> omega
  case lengths =>
    intro k s hs
    obtain ⟨-, rfl⟩ := eq_part hs
    rw [hcount, length_part]

/-- As many indices as words allow are divided into four spans, and the last of them has a remainder of
three; where there is no index, one empty span is made of it. -/
theorem partition_words : 0xffffffffffffffff < Word.limit ∧
    (∃ spans, divide 0xffffffffffffffff 4 = .ok spans ∧ Divides 0xffffffffffffffff 4 spans ∧
      spans = [⟨0, 0x3fffffffffffffff⟩, ⟨0x3fffffffffffffff, 0x3fffffffffffffff⟩,
        ⟨0x7ffffffffffffffe, 0x3fffffffffffffff⟩, ⟨0xbffffffffffffffd, 0x4000000000000002⟩]) ∧
    ∃ spans, divide 0 4 = .ok spans ∧ Divides 0 4 spans ∧ spans = [⟨0, 0⟩] := by
  have word : 0xffffffffffffffff < Word.limit := by decide
  have hlong : divide 0xffffffffffffffff 4 = .ok [⟨0, 0x3fffffffffffffff⟩,
      ⟨0x3fffffffffffffff, 0x3fffffffffffffff⟩, ⟨0x7ffffffffffffffe, 0x3fffffffffffffff⟩,
      ⟨0xbffffffffffffffd, 0x4000000000000002⟩] := rfl
  have hempty : divide 0 4 = .ok [⟨0, 0⟩] := rfl
  obtain ⟨spans, hspans, divides⟩ := partition 0xffffffffffffffff 4 word
  obtain ⟨spans', hspans', divides'⟩ := partition 0 4 (by decide)
  exact ⟨word, ⟨spans, hspans, divides, Except.ok.inj (hspans.symm.trans hlong)⟩,
    spans', hspans', divides', Except.ok.inj (hspans'.symm.trans hempty)⟩

/-! ## Slices -/

theorem slice_eq (stop : s.start + s.length ≤ xs.size) (word : xs.size < Word.limit) :
    s.slice xs = .ok (xs.extract s.start (s.start + s.length)) := by
  have hadd : Word.add s.start s.length = .ok (s.start + s.length) :=
    Word.add_eq_ok.2 ⟨Nat.lt_of_le_of_lt stop word, rfl⟩
  simp [slice, hadd, stop, bind, Except.bind, pure, Except.pure]

/-- Slices by spans that follow each other are, put together, the slice that the spans cover. -/
theorem mapM_slice (f : α → β) (tiles : Tiles lo spans hi) (stop : hi ≤ xs.size)
    (word : xs.size < Word.limit) (acc : Array β) :
    ∃ parts, spans.mapM (fun s => (s.slice xs).map (·.map f)) = .ok parts ∧
      parts.foldl (· ++ ·) acc = acc ++ (xs.extract lo hi).map f := by
  induction spans generalizing lo acc with
  | nil =>
    obtain rfl : lo = hi := tiles
    refine ⟨[], rfl, ?_⟩
    rw [Array.extract_empty_of_stop_le_start (Nat.le_refl _)]
    simp
  | cons s spans ih =>
    obtain ⟨rfl, tiles⟩ := tiles
    have hle : s.start + s.length ≤ hi := tiles.le
    have hslice := slice_eq (Nat.le_trans hle stop) word
    obtain ⟨parts, hparts, hwhole⟩ :=
      ih tiles (acc ++ (xs.extract s.start (s.start + s.length)).map f)
    refine ⟨(xs.extract s.start (s.start + s.length)).map f :: parts, ?_, ?_⟩
    · rw [List.mapM_cons, hslice, hparts]
      rfl
    · have hjoin : xs.extract s.start (s.start + s.length) ++ xs.extract (s.start + s.length) hi =
          xs.extract s.start hi := by
        rw [Array.extract_append_extract, Nat.min_eq_left (Nat.le_add_right _ _),
          Nat.max_eq_right hle]
      rw [List.foldl_cons, hwhole, Array.append_assoc, ← Array.map_append, hjoin]

end LevelTree.Span
