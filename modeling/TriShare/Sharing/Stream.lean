import TriShare.Bytes
import TriShare.Hash.Blake3
/-!
Endless tapes from a short random seed: the hashes of the seed with the number of the tape and a
running number, one after the other.
-/

namespace TriShare

/-- The bytes of a tape, in pieces of the length of a hash. -/
def streamPiece (seed : List UInt8) (tape piece : Nat) : List UInt8 :=
  Blake3.hash (seed ++ Bytes.littleEndian 8 tape ++ Bytes.littleEndian 8 piece)

/-- The tapes of a seed. -/
def seededTape (seed : List UInt8) (tape i : Nat) : UInt8 :=
  (streamPiece seed tape (i / 32)).getD (i % 32) 0

end TriShare
