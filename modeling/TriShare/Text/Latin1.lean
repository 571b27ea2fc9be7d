/-!
Single-byte text: a character is written as the byte of its code point, so exactly the characters
up to U+00FF can be written. Every byte string can be read.
-/

namespace TriShare.Latin1

/-- A character without a single-byte form, with its place among the characters of its text. -/
structure Unencodable where
  char : Char
  position : Nat
  deriving DecidableEq, Repr

/-- The bytes of the characters, the first of which stands at `position`. -/
def encodeFrom (position : Nat) : List Char → Except Unencodable (List UInt8)
  | [] => .ok []
  | c :: cs =>
    if c.toNat < 256 then (encodeFrom (position + 1) cs).map (UInt8.ofNat c.toNat :: ·)
    else .error ⟨c, position⟩

/-- One byte for each character, or the first character that has none. -/
def encode (text : String) : Except Unencodable (List UInt8) := encodeFrom 0 text.toList

/-- The character of a byte. -/
def charOf (b : UInt8) : Char := Char.ofNat b.toNat

/-- One character for each byte. -/
def decode (bytes : List UInt8) : String := String.ofList (bytes.map charOf)

end TriShare.Latin1
