import TriShare.Sharing.Replicated
import TriShare.Sharing.Source
/-!
Sharing of byte strings: three components of the string's length whose exclusive or is the string,
the first two of them random. The empty string is shared as a single zero byte, without drawing
anything.
-/

namespace TriShare.Bytewise

/-- The components of a byte string, of which two are given. -/
def split (plain s1 s2 : List UInt8) : Triple (List UInt8) :=
  ⟨s1, s2, Bytes.xor (Bytes.xor plain s1) s2⟩

/-- The components of the empty string. -/
def empty : Triple (List UInt8) := Triple.all [0]

/-- The components of a byte string, two of them drawn. -/
def draw (plain : List UInt8) (source : Source) : Triple (List UInt8) × Source :=
  if plain.isEmpty then (empty, source)
  else
    let (s1, source) := source.take plain.length
    let (s2, source) := source.take plain.length
    (split plain s1 s2, source)

/-- The combinations that the parties hold. -/
def redundant (s : Triple (List UInt8)) : Triple (List UInt8) := Replicated.redundant Bytes.xor s

/-- The byte string that the components make. -/
def reconstruct (s : Triple (List UInt8)) : List UInt8 := Bytes.xor (Bytes.xor s.p1 s.p2) s.p3

/-- The parties' shares. -/
def shares (s : Triple (List UInt8)) : Triple PartyShare := Replicated.shares id Bytes.xor s

end TriShare.Bytewise
