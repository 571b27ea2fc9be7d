import TriShare.Table.Chunk
import TriShare.Table.Share
/-!
Sharing of a table by several workers, each of which shares one chunk with a source of its own. All
chunks are shared, whatever becomes of the others; the error of the first chunk that has one is the
error of the whole.
-/

namespace TriShare

/-- The views of each chunk of a table, with the tape of the chunk's number. -/
def shareChunks (schema : Schema) (table : List Record) (workers : Nat)
    (tapes : Nat → Nat → UInt8) : List (Except Error (Triple PartyTable)) :=
  (Chunk.ranges table.length workers).zipIdx.map fun (c, i) =>
    (shareRecords schema c.start (c.slice table) (Source.ofTape (tapes i))).1

/-- Puts the views of consecutive chunks together, or gives the first error. -/
def joinChunks : List (Except Error (Triple PartyTable)) → Except Error (Triple PartyTable)
  | [] => .ok (Triple.all [])
  | .error e :: _ => .error e
  | .ok views :: rest => (joinChunks rest).map (Triple.zipWith List.append views)

/-- The views of a table that up to `workers` workers share. -/
def shareTableParallel (schema : Schema) (table : List Record) (workers : Nat)
    (tapes : Nat → Nat → UInt8) : Except Error (Triple PartyTable) :=
  joinChunks (shareChunks schema table workers tapes)

end TriShare
