/-!
Natural numbers and texts as byte strings.
-/

namespace TriShare.Bytes

/-- The `n` least significant bytes of a number, the least significant first. -/
def littleEndian : Nat → Nat → List UInt8
  | 0, _ => []
  | n + 1, value => UInt8.ofNat (value % 256) :: littleEndian n (value / 256)

/-- The number whose bytes these are, the least significant first. -/
def value : List UInt8 → Nat
  | [] => 0
  | b :: bs => b.toNat + 256 * value bs

/-- The eight bytes of a word, the most significant first. -/
def ofWord (w : UInt64) : List UInt8 := (littleEndian 8 w.toNat).reverse

/-- The word whose bytes these are, the most significant first. -/
def toWord (bs : List UInt8) : UInt64 := UInt64.ofNat (value bs.reverse)

/-- The bytes of a text in UTF-8. -/
def ofText (s : String) : List UInt8 := s.toUTF8.data.toList

/-- The exclusive or of two byte strings, as long as the shorter one. -/
def xor (a b : List UInt8) : List UInt8 := List.zipWith (· ^^^ ·) a b

end TriShare.Bytes
