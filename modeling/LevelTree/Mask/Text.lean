import LevelTree.Mask

/-!
# Masks as text

A mask is written with `*` for a set bit and `-` for a clear one. A mask of two dimensions takes
a line per row, and any other mask takes a single line. Reading takes the extents from the first
line and the number of lines, and only stars count.
-/

namespace LevelTree.Mask

/-- The character for a bit. -/
def glyph (b : Bool) : Char := if b then '*' else '-'

/-- The number of bits on a line. -/
def lineWidth (m : Mask) : Nat :=
  match m.extents.sides with
  | [width, _] => width
  | _ => max m.bits.size 1

/-- The bits from index `i` on, each line ended once it holds `width` bits. -/
def renderFrom (width i : Nat) : List Bool → List Char
  | [] => []
  | b :: bits =>
    let rest := renderFrom width (i + 1) bits
    glyph b :: if (i + 1) % width = 0 then '\n' :: rest else rest

/-- The text of a mask; bits on lines without width cannot be written. -/
def render (m : Mask) : Except Fault String :=
  if m.lineWidth = 0 ∧ m.bits.size ≠ 0 then .error .divisionByZero
  else .ok (String.ofList (renderFrom m.lineWidth 0 m.bits.toList))

/-- The lines of a text. A line feed ends a line together with a carriage return before it. -/
def lines : List Char → List (List Char)
  | [] => []
  | '\n' :: cs => [] :: lines cs
  | '\r' :: '\n' :: cs => [] :: lines cs
  | c :: cs =>
    match lines cs with
    | [] => [[c]]
    | line :: rest => (c :: line) :: rest

/-- The number of bytes of a line in UTF-8. -/
def byteLength (line : List Char) : Nat := line.foldr (fun c n => c.utf8Size + n) 0

/-- Writes line `y`: the bit of each character is set if it is a star. What does not fit into the
row is dropped. -/
def writeLine (m : Mask) (y : Nat) (line : List Char) : Except Fault Mask :=
  line.zipIdx.foldlM (fun m (c, x) => (m.set [x, y] (c == '*')).map (·.2)) m

/-- The mask that a text shows, as wide as the first line has bytes and as high as it has lines. All
bits are clear at first, and the lines are written to them. -/
def parse (text : String) : Except Fault Mask := do
  let rows := lines text.toList
  let m ← blank [byteLength (rows.headD []), rows.length]
  rows.zipIdx.foldlM (fun m (line, y) => m.writeLine y line) m

end LevelTree.Mask
