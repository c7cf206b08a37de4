import LevelTree.Mask.Text
import LevelTree.Proofs.Writes

/-!
# Masks written as text and read back

A text breaks into lines (`Breaks`), and the bits of a mask with two sides into rows (`Shows`).
Writing ends a line exactly where a row ends (`Shows.render`). Reading writes the characters to a
clear mask, one after the other (`parse_eq`), which makes one row of every line (`parse_shows`). So a
mask whose sides are positive is read back from its text (`Shows.parse`).
-/

namespace LevelTree.Mask

variable {m : Mask} {w x y : Nat} {cs ln : List Char} {lns : List (List Char)}
  {row : List Bool} {rows : List (List Bool)} {text : String}

/-! ## Lines -/

/-- The line without a carriage return at its end. -/
def chomp (ln : List Char) : List Char :=
  if ln.getLast? = some '\r' then ln.dropLast else ln

/-- The text breaks into these lines. A line feed ends a line, and a carriage return before it goes
with it; what follows the last line feed is a line if it is not empty. -/
inductive Breaks : List Char → List (List Char) → Prop
  | nothing : Breaks [] []
  | last {ln : List Char} : ln ≠ [] → '\n' ∉ ln → Breaks ln [ln]
  | ended {ln cs : List Char} {lns : List (List Char)} : '\n' ∉ ln → Breaks cs lns →
    Breaks (ln ++ '\n' :: cs) (chomp ln :: lns)

theorem chomp_of_not_mem (h : '\r' ∉ ln) : chomp ln = ln := by
  rw [chomp, if_neg fun hlast => h (List.mem_of_getLast? hlast)]

theorem chomp_cons {c : Char} (h : ln ≠ []) : chomp (c :: ln) = c :: chomp ln := by
  obtain ⟨d, ln, rfl⟩ := List.exists_cons_of_ne_nil h
  simp only [chomp, List.getLast?_cons_cons, List.dropLast_cons_cons, apply_ite (List.cons c)]

/-- A character that ends no line starts the first one. -/
theorem lines_cons {c : Char} (hc : c ≠ '\n') (hend : c = '\r' → cs.head? ≠ some '\n') :
    lines (c :: cs) = (c :: (lines cs).headD []) :: (lines cs).tail := by
  have hpair : ∀ ds, c = '\r' → cs = '\n' :: ds → False := by
    rintro ds rfl rfl
    exact hend rfl rfl
  rw [lines.eq_4 c cs hc hpair]
  cases lines cs <;> rfl

theorem lines_ended (h : '\n' ∉ ln) : lines (ln ++ '\n' :: cs) = chomp ln :: lines cs := by
  induction ln with
  | nil => simp [lines, chomp]
  | cons c ln ih =>
    obtain ⟨hc, hline⟩ := List.ne_and_not_mem_of_not_mem_cons h
    -- a carriage return is dropped only where the line feed follows
    by_cases hnil : ln = []
    · subst hnil
      by_cases hcr : c = '\r'
      · subst hcr
        simp [lines, chomp]
      · rw [List.cons_append, lines_cons hc.symm fun h => absurd h hcr, ih hline]
        simp [chomp, hcr]
    · rw [List.cons_append, lines_cons hc.symm, ih hline, chomp_cons hnil]
      · rfl
      · obtain ⟨d, ln, rfl⟩ := List.exists_cons_of_ne_nil hnil
        rintro - hhead
        exact hline (by simp_all)

theorem lines_last (hnil : ln ≠ []) (h : '\n' ∉ ln) : lines ln = [ln] := by
  induction ln with
  | nil => contradiction
  | cons c ln ih =>
    obtain ⟨hc, hline⟩ := List.ne_and_not_mem_of_not_mem_cons h
    rw [lines_cons hc.symm fun _ hhead => hline (List.mem_of_mem_head? hhead)]
    by_cases hnil : ln = []
    · simp [hnil, lines]
    · rw [ih hnil hline]
      rfl

/-- Every text breaks into its lines. -/
theorem breaks_lines (cs : List Char) : Breaks cs (lines cs) := by
  by_cases hmem : '\n' ∈ cs
  · obtain ⟨ln, rest, hcs, hline⟩ := List.eq_append_cons_of_mem hmem
    have hshorter : rest.length < cs.length := by
      rw [hcs, List.length_append, List.length_cons]
      omega
    rw [hcs, lines_ended hline]
    exact .ended hline (breaks_lines rest)
  · by_cases hnil : cs = []
    · subst hnil
      exact .nothing
    · rw [lines_last hnil hmem]
      exact .last hnil hmem
termination_by cs.length

/-- No text breaks into other lines. -/
theorem Breaks.lines_eq (h : Breaks cs lns) : lines cs = lns := by
  induction h with
  | nothing => rfl
  | last hnil hline => exact lines_last hnil hline
  | ended hline _ ih => rw [lines_ended hline, ih]

/-- Lines without line breaks of their own, each ended by a line feed, are the lines of the text. -/
theorem breaks_flatMap (h : ∀ ln ∈ lns, '\n' ∉ ln ∧ '\r' ∉ ln) :
    Breaks (lns.flatMap (· ++ ['\n'])) lns := by
  induction lns with
  | nil => exact .nothing
  | cons ln lns ih =>
    obtain ⟨⟨hline, hcr⟩, hlns⟩ := List.forall_mem_cons.1 h
    have hended := Breaks.ended hline (ih hlns)
    rw [chomp_of_not_mem hcr] at hended
    simpa using hended

/-- The number of bytes of the first line in UTF-8, zero where there is no line. -/
def leadingBytes (lns : List (List Char)) : Nat := (String.ofList (lns.headD [])).utf8ByteSize

theorem byteLength_cons (c : Char) (ln : List Char) :
    byteLength (c :: ln) = c.utf8Size + byteLength ln := rfl

theorem byteLength_eq (ln : List Char) : byteLength ln = (String.ofList ln).utf8ByteSize := by
  induction ln with
  | nil => rfl
  | cons c ln ih => simp [byteLength_cons, ih]

/-! ## Rows -/

/-- The text of rows of bits, each on a line of its own. -/
def textOf (rows : List (List Bool)) : List Char := (rows.map (·.map glyph)).flatMap (· ++ ['\n'])

/-- The mask has two sides, and its bits are these rows of the given width, one after the other. -/
structure Shows (m : Mask) (w : Nat) (rows : List (List Bool)) : Prop where
  sides : m.extents.sides = [w, rows.length]
  width : ∀ row ∈ rows, row.length = w
  bits : m.bits.toList = rows.flatten

/-- A line as `width` bits, set at its stars. -/
def rowBits (width : Nat) (line : List Char) : List Bool :=
  (line.take width).map (· == '*') ++ List.replicate (width - line.length) false

theorem glyph_cases (b : Bool) : glyph b = '*' ∨ glyph b = '-' := by
  cases b <;> simp [glyph]

theorem not_mem_map_glyph {c : Char} (hstar : c ≠ '*') (hdash : c ≠ '-') : c ∉ row.map glyph := by
  simp only [List.mem_map, not_exists, not_and]
  rintro b -
  rcases glyph_cases b with h | h <;> rw [h]
  · exact hstar.symm
  · exact hdash.symm

theorem breaks_textOf (rows : List (List Bool)) :
    Breaks (textOf rows) (rows.map (·.map glyph)) := by
  refine breaks_flatMap fun ln hline => ?_
  obtain ⟨row, -, rfl⟩ := List.mem_map.1 hline
  exact ⟨not_mem_map_glyph (by decide) (by decide), not_mem_map_glyph (by decide) (by decide)⟩

theorem byteLength_map_glyph (row : List Bool) : byteLength (row.map glyph) = row.length := by
  induction row with
  | nil => rfl
  | cons b row ih =>
    have hglyph : (glyph b).utf8Size = 1 := by cases b <;> rfl
    rw [List.map_cons, byteLength_cons, ih, hglyph, List.length_cons, Nat.add_comm]

theorem length_rowBits (w : Nat) (ln : List Char) : (rowBits w ln).length = w := by
  simp only [rowBits, List.length_append, List.length_map, List.length_take, List.length_replicate]
  omega

theorem length_of_mem_map_rowBits (w : Nat) (lns : List (List Char)) :
    ∀ row ∈ lns.map (rowBits w), row.length = w := by
  intro row hrow
  obtain ⟨ln, -, rfl⟩ := List.mem_map.1 hrow
  exact length_rowBits w ln

/-- The bits of a line are set at its stars. -/
theorem getElem?_rowBits (hx : x < w) : (rowBits w ln)[x]? = some (ln[x]? == some '*') := by
  rw [rowBits, List.getElem?_append]
  by_cases hline : x < ln.length
  · rw [if_pos (by simp; omega)]
    simp [hx, hline]
  · rw [if_neg (by simp; omega), List.getElem?_replicate, if_pos (by simp; omega)]
    simp [Nat.le_of_not_lt hline]

/-- Within the width, an entry of the rows is as the character there. -/
theorem entry_rowBits (hx : x < w) : ((lns.map (rowBits w))[y]?.bind (·[x]?)).getD false =
    ((lns[y]?.bind (·[x]?)).map (· == '*')).getD false := by
  rw [List.getElem?_map]
  cases lns[y]? with
  | none => rfl
  | some ln =>
    simp only [Option.map_some, Option.bind_some, getElem?_rowBits hx]
    cases ln[x]? <;> simp

/-- Entry `x` of row `y` is set where line `y` has its star, within the width. -/
theorem star_iff : ((lns.map (rowBits w))[y]?.bind (·[x]?)).getD false = true ↔
    x < w ∧ ∃ ln, lns[y]? = some ln ∧ ln[x]? = some '*' := by
  by_cases hx : x < w
  · rw [entry_rowBits hx]
    cases lns[y]? with
    | none => simp
    | some ln => cases hc : ln[x]? <;> simp [hx, hc]
  · have hnone : ∀ ln, (rowBits w ln)[x]? = none := fun ln =>
      List.getElem?_eq_none (by rw [length_rowBits]; omega)
    rw [List.getElem?_map]
    cases lns[y]? <;> simp [hnone, hx]

/-- A written row is read back. -/
theorem rowBits_map_glyph (h : row.length = w) : rowBits w (row.map glyph) = row := by
  refine List.ext_getElem? fun x => ?_
  by_cases hx : x < w
  · have hrow : x < row.length := h ▸ hx
    rw [getElem?_rowBits hx, List.getElem?_map, List.getElem?_eq_getElem hrow]
    cases row[x] <;> rfl
  · rw [List.getElem?_eq_none (by rw [length_rowBits]; omega), List.getElem?_eq_none (by omega)]

/-- A line of stars and dashes is the text of the row read from it. -/
theorem map_glyph_rowBits (hlen : ln.length = w) (hchars : ∀ c ∈ ln, c = '*' ∨ c = '-') :
    (rowBits w ln).map glyph = ln := by
  refine List.ext_getElem? fun x => ?_
  by_cases hx : x < w
  · have hline : x < ln.length := hlen ▸ hx
    rw [List.getElem?_map, getElem?_rowBits hx, List.getElem?_eq_getElem hline]
    rcases hchars _ (List.getElem_mem hline) with h | h <;> rw [h] <;> rfl
  · rw [List.getElem?_map, List.getElem?_eq_none (by rw [length_rowBits]; omega),
      List.getElem?_eq_none (by omega)]
    rfl

theorem map_rowBits_map_glyph (hwidth : ∀ row ∈ rows, row.length = w) :
    (rows.map (·.map glyph)).map (rowBits w) = rows := by
  rw [List.map_map]
  refine (List.map_congr_left fun row hrow => ?_).trans (List.map_id rows)
  exact rowBits_map_glyph (hwidth row hrow)

theorem textOf_map_rowBits
    (hlines : ∀ ln ∈ lns, ln.length = w ∧ ∀ c ∈ ln, c = '*' ∨ c = '-') :
    textOf (lns.map (rowBits w)) = lns.flatMap (· ++ ['\n']) := by
  have hmap : (lns.map (rowBits w)).map (·.map glyph) = lns := by
    rw [List.map_map]
    refine (List.map_congr_left fun ln hline => ?_).trans (List.map_id lns)
    exact map_glyph_rowBits (hlines ln hline).1 (hlines ln hline).2
  rw [textOf, hmap]

/-- Bits as many as `h` rows of width `w` have can be cut into these rows. -/
theorem exists_rows {bits : List Bool} {h : Nat} (hlen : bits.length = w * h) :
    ∃ rows : List (List Bool), rows.length = h ∧ (∀ row ∈ rows, row.length = w) ∧
      bits = rows.flatten := by
  induction h generalizing bits with
  | zero => exact ⟨[], rfl, by simp, by simpa using hlen⟩
  | succ h ih =>
    rw [Nat.mul_succ] at hlen
    obtain ⟨rows, hrows, hwidth, hbits⟩ := @ih (bits.drop w) (by rw [List.length_drop]; omega)
    refine ⟨bits.take w :: rows, by rw [List.length_cons, hrows], ?_, ?_⟩
    · exact List.forall_mem_cons.2 ⟨by rw [List.length_take]; omega, hwidth⟩
    · rw [List.flatten_cons, ← hbits, List.take_append_drop]

theorem getElem?_flatten (hwidth : ∀ row ∈ rows, row.length = w) (hx : x < w) :
    rows.flatten[x + w * y]? = rows[y]?.bind (·[x]?) := by
  induction rows generalizing y with
  | nil => simp
  | cons row rows ih =>
    obtain ⟨hrow, hrows⟩ := List.forall_mem_cons.1 hwidth
    rw [List.flatten_cons]
    cases y with
    | zero =>
      rw [Nat.mul_zero, Nat.add_zero, List.getElem?_append_left (by omega)]
      simp
    | succ y =>
      have hrest : x + w * (y + 1) - row.length = x + w * y := by rw [hrow, Nat.mul_succ]; omega
      rw [List.getElem?_append_right (by rw [hrow, Nat.mul_succ]; omega), hrest, ih hrows]
      simp

/-- A mask with two sides and a bit for every cell shows rows. -/
theorem exists_shows {h : Nat} (hsides : m.extents.sides = [w, h]) (hbits : m.bits.size = w * h) :
    ∃ rows, m.Shows w rows := by
  have hlen : m.bits.toList.length = w * h := by rwa [Array.length_toList]
  obtain ⟨rows, rfl, hwidth, hflat⟩ := exists_rows hlen
  exact ⟨rows, hsides, hwidth, hflat⟩

/-- Rows of one width make a mask where their bits can be counted in a word. -/
theorem exists_showing (hwidth : ∀ row ∈ rows, row.length = w)
    (hsize : w * rows.length < Word.limit) (hnil : rows = [] → w = 0) :
    ∃ m : Mask, m.Shows w rows := by
  have hproduct := Word.product_pair hsize fun h => hnil (List.length_eq_zero_iff.1 h)
  exact ⟨⟨⟨_, _, hproduct⟩, rows.flatten.toArray⟩, rfl, hwidth, rfl⟩

/-- The rows determine the mask. -/
theorem Shows.unique {n : Mask} (hm : m.Shows w rows) (hn : n.Shows w rows) : m = n := by
  obtain ⟨extents, bits⟩ := m
  obtain ⟨extents', bits'⟩ := n
  obtain rfl : extents = extents' := Extents.eq_of_sides (hm.sides.trans hn.sides.symm)
  obtain rfl : bits = bits' := Array.toList_inj.1 (hm.bits.trans hn.bits.symm)
  rfl

/-- The bit at `[x, y]` is entry `x` of row `y`. -/
theorem Shows.get (h : m.Shows w rows) :
    m.get [x, y] = .ok ((rows[y]?.bind (·[x]?)).getD false) := by
  have hindex : m.extents.index? [x, y] =
      if x < w ∧ y < rows.length then some (x + w * y) else none := by
    by_cases hx : x < w <;> by_cases hy : y < rows.length <;>
      simp [Extents.index?, h.sides, Extents.horner, hx, hy]
  simp only [Mask.get, Extents.indexByGrowth_eq, hindex, bind, Except.bind, pure, Except.pure]
  by_cases hin : x < w ∧ y < rows.length
  · rw [if_pos hin]
    simp only [bit, ← Array.getElem?_toList, h.bits, getElem?_flatten h.width hin.1]
  · rw [if_neg hin]
    have hnone : rows[y]?.bind (·[x]?) = none := by
      rw [Option.bind_eq_none_iff]
      intro row hrow
      have hy := (List.getElem?_eq_some_iff.1 hrow).1
      have hlen := h.width row (List.mem_of_getElem? hrow)
      exact List.getElem?_eq_none (by omega)
    rw [hnone]
    rfl

/-! ## Writing -/

/-- The line ends behind the last bit of its row. -/
theorem renderFrom_row {i : Nat} {bits : List Bool} (hnil : row ≠ []) (hle : row.length ≤ w)
    (hend : w ∣ i + row.length) :
    renderFrom w i (row ++ bits) =
      row.map glyph ++ '\n' :: renderFrom w (i + row.length) bits := by
  induction row generalizing i with
  | nil => contradiction
  | cons b row ih =>
    rw [List.length_cons] at hle hend
    by_cases hlast : row = []
    · subst hlast
      have hline : (i + 1) % w = 0 := Nat.mod_eq_zero_of_dvd hend
      simp [renderFrom, hline]
    · -- Between two ends of lines lie at least as many bits as a line holds.
      have hsum : w ∣ i + 1 + row.length := by rwa [Nat.add_right_comm]
      have hinner : (i + 1) % w ≠ 0 := fun hzero => by
        have hrow := (Nat.dvd_add_right (Nat.dvd_of_mod_eq_zero hzero)).1 hsum
        have hle := Nat.le_of_dvd (List.length_pos_iff.2 hlast) hrow
        omega
      rw [List.cons_append, renderFrom, if_neg hinner, ih hlast (by omega) hsum]
      simp [Nat.add_assoc, Nat.add_comm 1]

theorem renderFrom_flatten {i : Nat} (hw : 0 < w) (hwidth : ∀ row ∈ rows, row.length = w)
    (hi : w ∣ i) : renderFrom w i rows.flatten = textOf rows := by
  induction rows generalizing i with
  | nil => rfl
  | cons row rows ih =>
    obtain ⟨hrow, hrows⟩ := List.forall_mem_cons.1 hwidth
    have hend : w ∣ i + row.length := Nat.dvd_add hi (hrow ▸ Nat.dvd_refl _)
    rw [List.flatten_cons,
      renderFrom_row (List.length_pos_iff.1 (hrow ▸ hw)) (Nat.le_of_eq hrow) hend,
      ih hrows hend]
    simp [textOf]

theorem Shows.lineWidth (h : m.Shows w rows) : m.lineWidth = w := by
  rw [Mask.lineWidth, h.sides]

/-- Every row is written on a line of its own. -/
theorem Shows.render (h : m.Shows w rows) (hw : 0 < w) :
    m.render = .ok (String.ofList (textOf rows)) := by
  rw [Mask.render, h.lineWidth, if_neg (by omega), h.bits,
    renderFrom_flatten hw h.width (Nat.dvd_zero w)]

/-- Rows without width leave no text. -/
theorem Shows.render_of_zero (h : m.Shows 0 rows) : m.render = .ok "" := by
  have hflat : rows.flatten = [] :=
    List.flatten_eq_nil_iff.2 fun row hrow => List.length_eq_zero_iff.1 (h.width row hrow)
  have hbits : m.bits = #[] := Array.toList_inj.1 (h.bits.trans hflat)
  simp [Mask.render, hbits, renderFrom]

/-! ## Reading -/

/-- What is written for a text: line by line, a bit for each character. -/
def strokes (lns : List (List Char)) : List (Position × Bool) :=
  lns.zipIdx.flatMap fun (ln, y) => ln.zipIdx.map fun (c, x) => ([x, y], c == '*')

/-- A loop over a list of lists is a loop in a loop. -/
theorem foldlM_flatMap {σ β γ : Type} {f : β → List γ} {g : σ → γ → Except Fault σ} {bs : List β}
    {s : σ} : (bs.flatMap f).foldlM g s = bs.foldlM (fun s b => (f b).foldlM g s) s := by
  induction bs generalizing s with
  | nil => rfl
  | cons b bs ih => simp [ih]

theorem foldlM_set (m : Mask) (ws : List (Position × Bool)) :
    ws.foldlM (fun m w => (m.set w.1 w.2).map (·.2)) m = (writeAll set m ws).map (·.2) := by
  induction ws generalizing m with
  | nil => rfl
  | cons w ws ih =>
    simp only [List.foldlM_cons, writeAll, bind, Except.bind, pure, Except.pure, ih]
    cases m.set w.1 w.2 with
    | error fault => rfl
    | ok answer => cases hrest : writeAll set answer.2 ws <;> simp [Except.map, hrest]

/-- Reading a text is writing its characters to a clear mask. -/
theorem parse_eq (text : String) : parse text =
    (blank [byteLength ((lines text.toList).headD []), (lines text.toList).length]).bind fun m =>
      (writeAll set m (strokes (lines text.toList))).map (·.2) := by
  simp only [parse, writeLine, bind, ← foldlM_set, strokes, foldlM_flatMap, List.foldlM_map]

/-- The strokes at a place are all alike: they are as the character there. -/
theorem mem_strokes {b : Bool} : ([x, y], b) ∈ strokes lns ↔
    (lns[y]?.bind (·[x]?)).map (· == '*') = some b := by
  simp only [strokes, List.mem_flatMap, List.mem_map, Prod.exists, List.mem_zipIdx_iff_getElem?,
    Prod.mk.injEq, List.cons.injEq, and_true, Option.map_eq_some_iff, Option.bind_eq_some_iff]
  constructor
  · rintro ⟨ln, _, hln, c, _, hc, ⟨rfl, rfl⟩, hb⟩
    exact ⟨c, ⟨ln, hln, hc⟩, hb⟩
  · rintro ⟨c, ⟨ln, hln, hc⟩, hb⟩
    exact ⟨ln, y, hln, c, x, hc, ⟨rfl, rfl⟩, hb⟩

/-- Where all entries under a name are alike, they are what is found. -/
theorem lookup_eq {ws : List (Position × Bool)} {p : Position} {b? : Option Bool}
    (alike : ∀ b, (p, b) ∈ ws ↔ b? = some b) : ws.lookup p = b? := by
  cases hfound : ws.lookup p with
  | some b =>
    obtain ⟨before, after, rfl, -⟩ := List.lookup_eq_some_iff.1 hfound
    exact ((alike b).1 (by simp)).symm
  | none =>
    have hnone := List.lookup_eq_none_iff.1 hfound
    refine (Option.eq_none_iff_forall_ne_some.2 fun b hb => ?_).symm
    simpa using hnone _ ((alike b).2 hb)

/-- The bit that is written last to a place shows the character there. -/
theorem lookup_strokes : (strokes lns).reverse.lookup [x, y] =
    (lns[y]?.bind (·[x]?)).map (· == '*') :=
  lookup_eq fun _ => by rw [List.mem_reverse, mem_strokes]

/-- Rows of one width are known from their entries. -/
theorem rows_ext {rows' : List (List Bool)} (hlength : rows.length = rows'.length)
    (hwidth : ∀ row ∈ rows, row.length = w) (hwidth' : ∀ row ∈ rows', row.length = w)
    (same : ∀ x y, x < w → y < rows.length →
      (rows[y]?.bind (·[x]?)).getD false = (rows'[y]?.bind (·[x]?)).getD false) : rows = rows' := by
  refine List.ext_getElem hlength fun y hy hy' => ?_
  have hrow := hwidth _ (List.getElem_mem hy)
  have hrow' := hwidth' _ (List.getElem_mem hy')
  refine List.ext_getElem (hrow.trans hrow'.symm) fun x hx hx' => ?_
  simpa [hy, hy', hx, hx'] using same x y (hrow ▸ hx) hy

/-- Every line is read as a row, at most as wide as the first line has bytes. -/
theorem parse_shows (h : Breaks text.toList lns)
    (hsize : leadingBytes lns * lns.length < Word.limit) :
    ∃ m, parse text = .ok m ∧ m.Shows (leadingBytes lns)
      (lns.map (rowBits (leadingBytes lns))) := by
  have hproduct : Word.product [leadingBytes lns, lns.length] =
      .ok (leadingBytes lns * lns.length) :=
    Word.product_pair hsize fun hnil => by rw [List.length_eq_zero_iff.1 hnil]; rfl
  let e : Extents := ⟨_, _, hproduct⟩
  have hblank : blank [leadingBytes lns, lns.length] = .ok ⟨e, Array.replicate e.volume false⟩ := by
    simp [blank, Extents.ofSides_eq hproduct, bind, Except.bind, pure, Except.pure, e]
  obtain ⟨answers, bits, hrun, -, hbits, hheld⟩ :=
    exists_writeAll (fun _ p b hsize => set_eq_store hsize p b)
      (Array.size_replicate (v := false)) (strokes lns)
  have hparse : parse text = .ok ⟨e, bits⟩ := by
    have hbytes : byteLength (lns.headD []) = leadingBytes lns := byteLength_eq _
    rw [parse_eq, h.lines_eq, hbytes, hblank, Except.bind, hrun]
    rfl
  obtain ⟨rows, hshows⟩ := exists_shows (m := ⟨e, bits⟩) rfl hbits
  have hlength : rows.length = lns.length := by simpa [e] using hshows.sides.symm
  have hrows : rows = lns.map (rowBits (leadingBytes lns)) := by
    refine rows_ext (by rw [hlength, List.length_map]) hshows.width
      (length_of_mem_map_rowBits _ lns) fun x y hx hy => ?_
    have hinside : Extents.Inside e.sides [x, y] := ⟨hx, hlength ▸ hy, trivial⟩
    obtain ⟨i, b, -, hb, hclear⟩ := held_of_inside Array.size_replicate hinside
    obtain rfl : false = b := Option.some.inj (eq_some_of_replicate hb)
    -- what is read there is the last stroke, or the bit that was clear at first
    have hget := (hshows.get (x := x) (y := y)).symm.trans (get_eq_held _ _)
    rw [hheld _ hinside, lookup_strokes, hclear] at hget
    rw [entry_rowBits hx, Except.ok.inj hget]
    cases lns[y]?.bind (·[x]?) <;> rfl
  exact ⟨_, hparse, hrows ▸ hshows⟩

/-- What is written is read back. -/
theorem Shows.parse (h : m.Shows w rows) (hnil : rows ≠ []) :
    parse (String.ofList (textOf rows)) = .ok m := by
  have hbreaks : Breaks (String.ofList (textOf rows)).toList (rows.map (·.map glyph)) := by
    rw [String.toList_ofList]
    exact breaks_textOf rows
  obtain ⟨row, rest, rfl⟩ := List.exists_cons_of_ne_nil hnil
  have hfirst : leadingBytes ((row :: rest).map (·.map glyph)) = w := by
    rw [leadingBytes, ← byteLength_eq]
    exact (byteLength_map_glyph row).trans (h.width row (by simp))
  have hsize : w * (row :: rest).length < Word.limit := by
    have hvolume := m.extents.volume_lt
    rw [m.extents.volume_eq_plainProduct, h.sides] at hvolume
    simpa [Word.plainProduct] using hvolume
  obtain ⟨n, hparse, hn⟩ := parse_shows hbreaks (by rwa [hfirst, List.length_map])
  rw [hfirst, map_rowBits_map_glyph h.width] at hn
  rw [hparse, hn.unique h]

/-- The text of a mask is read as a mask with the same text. -/
theorem Shows.stable (h : m.Shows w rows) (hnil : rows = [] → w = 0) :
    ∃ text, m.render = .ok text ∧ ∃ n, Mask.parse text = .ok n ∧ n.render = .ok text := by
  by_cases hw : w = 0
  · subst hw
    have hempty : Breaks "".toList [] := .nothing
    obtain ⟨n, hparse, hn⟩ := parse_shows hempty (by decide)
    exact ⟨"", h.render_of_zero, n, hparse, hn.render_of_zero⟩
  · have htext := h.render (Nat.pos_of_ne_zero hw)
    exact ⟨_, htext, m, h.parse fun hrows => hw (hnil hrows), htext⟩

/-! ## There and back -/

/-- A mask with two positive sides and a bit for every cell is read back from its text. Lines of
stars and dashes, each ended by a line feed and all of the same positive length, are the text of
the mask that is read from them, as long as the number of its cells is a word. Any text whose
leading bytes times its lines is a word is read as a mask with these two sides, set where a line has
a star within the width. That mask has a text, which reading and writing leave as it is. -/
theorem text_codec :
    (∀ (m : Mask) (w h : Nat), m.extents.sides = [w, h] → 0 < w → 0 < h → m.bits.size = w * h →
      ∃ text, m.render = .ok text ∧ parse text = .ok m) ∧
    (∀ (w : Nat) (lns : List (List Char)), 0 < w → lns ≠ [] →
      (∀ ln ∈ lns, ln.length = w ∧ ∀ c ∈ ln, c = '*' ∨ c = '-') →
      w * lns.length < Word.limit → ∃ m,
        parse (String.ofList (lns.flatMap (· ++ ['\n']))) = .ok m ∧
        m.render = .ok (String.ofList (lns.flatMap (· ++ ['\n'])))) ∧
    (∀ text : String, ∃ lns, Breaks text.toList lns ∧
      (leadingBytes lns * lns.length < Word.limit → ∃ m, parse text = .ok m ∧
        m.extents.sides = [leadingBytes lns, lns.length] ∧
        (∀ x y, ∃ b, m.get [x, y] = .ok b ∧ (b = true ↔
          x < leadingBytes lns ∧ ∃ ln, lns[y]? = some ln ∧ ln[x]? = some '*')) ∧
        ∃ shown, m.render = .ok shown ∧
          ∃ n, parse shown = .ok n ∧ n.render = .ok shown)) := by
  refine ⟨fun m w h hsides hw hh hbits => ?_, fun w lns hw hnil hlines hsize => ?_, fun text =>
    ⟨lines text.toList, breaks_lines _, fun hsize => ?_⟩⟩
  · obtain ⟨rows, hshows⟩ := exists_shows hsides hbits
    have hrows : rows ≠ [] := by
      rintro rfl
      have hsides' := hsides.symm.trans hshows.sides
      simp at hsides'
      omega
    exact ⟨_, hshows.render hw, hshows.parse hrows⟩
  · have hrows : lns.map (rowBits w) ≠ [] := fun h => hnil (List.map_eq_nil_iff.1 h)
    obtain ⟨m, hshows⟩ := exists_showing (length_of_mem_map_rowBits w lns)
      (by rwa [List.length_map]) fun h => absurd h hrows
    rw [← textOf_map_rowBits hlines]
    exact ⟨m, hshows.parse hrows, hshows.render hw⟩
  · obtain ⟨m, hparse, hshows⟩ := parse_shows (breaks_lines text.toList) hsize
    have hstable := hshows.stable fun hrows => by
      rw [List.map_eq_nil_iff.1 hrows]
      rfl
    refine ⟨m, hparse, by rw [hshows.sides, List.length_map], fun x y => ?_, hstable⟩
    exact ⟨_, hshows.get, star_iff⟩

/-- A mask of two by two, a column of two cells, and a text whose lines differ in length and in how
they end: its first line has two characters, one of them of two bytes, and so the mask is three wide. -/
theorem text_codec_ragged :
    (∃ text, (⟨⟨[2, 2], 4, rfl⟩, #[true, false, false, true]⟩ : Mask).render = .ok text ∧
      parse text = .ok ⟨⟨[2, 2], 4, rfl⟩, #[true, false, false, true]⟩) ∧
    (∃ m, parse "*\n-\n" = .ok m ∧ m.render = .ok "*\n-\n") ∧
    ∃ m, parse "é*\r\n-***\n\n*" = .ok m ∧ m.extents.sides = [3, 4] ∧
      m.get [1, 0] = .ok true ∧ m.get [3, 1] = .ok false ∧
      ∃ shown, m.render = .ok shown ∧ ∃ n, parse shown = .ok n ∧ n.render = .ok shown := by
  obtain ⟨masks, texts, ragged⟩ := text_codec
  refine ⟨masks _ 2 2 rfl (by decide) (by decide) rfl, ?_, ?_⟩
  · exact texts 1 [['*'], ['-']] (by decide) (by decide) (by simp) (by decide)
  · obtain ⟨lns, hbreaks, hread⟩ := ragged "é*\r\n-***\n\n*"
    obtain rfl : [['é', '*'], ['-', '*', '*', '*'], [], ['*']] = lns := by
      rw [← hbreaks.lines_eq]
      decide
    obtain ⟨m, hparse, hsides, hget, hstable⟩ := hread (by decide)
    have hinside : m.get [1, 0] = .ok true := by
      obtain ⟨b, hb, hstar⟩ := hget 1 0
      rw [hb, hstar.2 ⟨by decide, ['é', '*'], rfl, rfl⟩]
    have hbeyond : m.get [3, 1] = .ok false := by
      obtain ⟨b, hb, hstar⟩ := hget 3 1
      rw [hb, Bool.eq_false_iff.2 fun h => absurd (hstar.1 h).1 (by decide)]
    exact ⟨m, hparse, hsides, hinside, hbeyond, hstable⟩

end LevelTree.Mask
