import LevelTree.Word

/-!
# Spans

A span is a run of consecutive indices. A length is divided into spans of equal length, of which
the last also takes the remainder; there are never more spans than indices, and always one.
-/

namespace LevelTree

/-- The indices from `start` on, `length` of them. -/
structure Span where
  start : Nat
  length : Nat
  deriving Repr, DecidableEq, Inhabited

namespace Span

/-- The number of spans that `length` indices are divided into when `parts` are asked for. -/
def count (length parts : Nat) : Nat := min (max parts 1) (max length 1)

/-- Span `i` of `count` spans, all but the last of length `step`. -/
def nth (length count step i : Nat) : Except Fault Span := do
  let start ← Word.mul i step
  let stop ← if i + 1 = count then pure length else Word.add start step
  let size ← Word.sub stop start
  return ⟨start, size⟩

/-- Divides `length` indices into `parts` spans, or fewer when there are fewer indices. -/
def divide (length parts : Nat) : Except Fault (List Span) := do
  let n := count length parts
  let step ← Word.div length n
  (List.range n).mapM (nth length n step)

/-- The elements of `xs` in a span, which must not reach past the end. -/
def slice {α : Type} (s : Span) (xs : Array α) : Except Fault (Array α) := do
  let stop ← Word.add s.start s.length
  if stop ≤ xs.size then return xs.extract s.start stop else throw .outOfRange

end Span

end LevelTree
