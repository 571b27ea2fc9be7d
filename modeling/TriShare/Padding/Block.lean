import TriShare.Error
import TriShare.Json.Basic
/-!
Blocks of sixteen bytes, and byte strings cut into a given number of them with zeros at the end.
-/

namespace TriShare

/-- Sixteen bytes. -/
structure Block where
  bytes : List UInt8
  length_bytes : bytes.length = 16
  deriving DecidableEq

namespace Block

/-- How many bytes a block has. -/
def size : Nat := 16

def zero : Block := ⟨List.replicate 16 0, rfl⟩

/-- The block's bytes in hexadecimal. -/
def hex (b : Block) : String := Hex.encode b.bytes

/-- The first bytes of a string, with zeros after the string's end. -/
def ofPrefix (bytes : List UInt8) : Block :=
  ⟨(bytes ++ List.replicate 16 0).take 16, by simp⟩

/-- A number of blocks that hold a byte string from its beginning. -/
def fill : Nat → List UInt8 → List Block
  | 0, _ => []
  | n + 1, bytes => ofPrefix bytes :: fill n (bytes.drop size)

/-- How many bytes can be allocated at once, as a signed word counts them. -/
def maxAllocation : Nat := 0x7fffffffffffffff

/-- The blocks that hold a byte string, unless it is too long or their bytes cannot be counted in 64
bits. More of them than can be allocated are not noticed before it is tried. -/
def padded (bytes : List UInt8) (blocks : Nat) : Except Panic (Option (List Block)) :=
  if UInt64.size ≤ blocks * size ∨ blocks * size < bytes.length then .ok none
  else if maxAllocation < blocks * size then .error .capacityOverflow
  else .ok (some (fill blocks bytes))

/-- How many blocks hold a number of bytes. -/
def count (bytes : Nat) : Nat := (bytes + (size - 1)) / size

/-- The block of a document, an array of sixteen bytes. -/
def ofJson? : Json → Option Block
  | .array items =>
    match items.mapM (Json.natBelow? 256) with
    | none => none
    | some bytes =>
      let bytes := bytes.map UInt8.ofNat
      if h : bytes.length = 16 then some ⟨bytes, h⟩ else none
  | _ => none

end Block

end TriShare
