/-!
Cutting a table into contiguous chunks of nearly equal size, the larger ones first.
-/

namespace TriShare

/-- The positions from `start` up to but not including `stop`. -/
structure Chunk where
  start : Nat
  stop : Nat
  deriving DecidableEq, Repr

namespace Chunk

/-- How many chunks there are when `parts` are asked for: at least one, but no more than there are
positions. -/
def count (length parts : Nat) : Nat := max 1 (min parts (max length 1))

/-- The sizes of the chunks. -/
def sizes (length parts : Nat) : List Nat :=
  let n := count length parts
  (List.range n).map fun i => length / n + if i < length % n then 1 else 0

/-- Chunks of these sizes one after another, without the empty ones. -/
def layOut (start : Nat) : List Nat → List Chunk
  | [] => []
  | size :: rest =>
    if size = 0 then layOut start rest else ⟨start, start + size⟩ :: layOut (start + size) rest

/-- The chunks of a table of some length. -/
def ranges (length parts : Nat) : List Chunk := layOut 0 (sizes length parts)

/-- What stands at the positions of a chunk. -/
def slice {α : Type} (c : Chunk) (xs : List α) : List α := (xs.drop c.start).take (c.stop - c.start)

end Chunk

end TriShare
