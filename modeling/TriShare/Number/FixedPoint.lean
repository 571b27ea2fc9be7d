import TriShare.Error
import TriShare.Number.Decimal
import TriShare.Number.Double
import TriShare.Text.Blank
/-!
Fixed-point numbers in the integers modulo `2 ^ 64`: a decimal number `v` at a precision of `p` bits
is `v * 2 ^ p` truncated toward zero, negative numbers in two's complement. The exponent saturates
at the ends of a signed word. The integer part is read and scaled in a word of 128 bits, out of
which it must not run; the bits of the fraction are collected in one of 64 bits by doubling its
decimal digits.
-/

namespace TriShare.FixedPoint

/-- A fraction with more zeros than this after its point is below every precision. -/
def maxLeadingZeros : Nat := 64

/-- An integer with more digits than this, or with more zeros put after its digits, is beyond the
field. -/
def maxWholeDigits : Nat := 39

/-- An exponent as a signed word of 64 bits holds it: what is beyond its ends becomes the end. -/
def saturate (e : Int) : Int := max Int64.minValue.toInt (min e Int64.maxValue.toInt)

/-- How many of the digits stand before the point once the exponent has moved it. -/
def pointOf (d : Decimal) : Int := d.whole.length + saturate d.exponent

/-- The digits before and after a point that stands behind the given number of them; nothing if the
point is so far to the right that the number is beyond the field. -/
def split? (ds : List Nat) (point : Int) : Option (List Nat × List Nat) :=
  if point ≤ 0 then
    if maxLeadingZeros < -point then some ([], [])
    else some ([], List.replicate (-point).toNat 0 ++ ds)
  else if ds.length ≤ point then
    if maxWholeDigits < point - ds.length then none
    else some (ds ++ List.replicate (point - ds.length).toNat 0, [])
  else some (ds.take point.toNat, ds.drop point.toNat)

/-- A number that a word of 128 bits holds. -/
def fit? (n : Nat) : Option Nat := if n < 1 <<< 128 then some n else none

/-- Puts digits after those of a number, unless that runs out of the word on the way. -/
def accumulate? : List Nat → Nat → Option Nat
  | [], n => some n
  | d :: ds, n =>
    match (fit? (n * 10)).bind fun n => fit? (n + d) with
    | none => none
    | some n => accumulate? ds n

/-- The number that the digits before the point stand for, unless it is beyond the field. -/
def whole? (ds : List Nat) : Option Nat :=
  let ds := ds.dropWhile (· == 0)
  if maxWholeDigits < ds.length then none else accumulate? ds 0

/-- Doubles the fraction `0.d₁d₂…`: the bit that moves before the point, and the digits after it. -/
def double : List Nat → Nat × List Nat
  | [] => (0, [])
  | d :: ds =>
    let (carry, doubled) := double ds
    let n := d * 2 + carry
    (n / 10, n % 10 :: doubled)

/-- Moves a number of bits from before the fraction's point into a word, the first ones out of it
when there are more than 64. -/
def collect : Nat → List Nat → UInt64 → UInt64
  | 0, _, word => word
  | bits + 1, ds, word =>
    let (bit, ds) := double ds
    collect bits ds (2 * word + UInt64.ofNat bit)

/-- The first bits of the fraction `0.d₁d₂…`. -/
def fractionBits (ds : List Nat) (bits : Nat) : UInt64 := collect bits ds 0

/-- The number of both parts of the digits, scaled, unless it runs out of the word. -/
def scale? (precision : Nat) (parts : List Nat × List Nat) : Option Nat :=
  ((whole? parts.1).bind fun n => fit? (n <<< precision)).bind fun n =>
    fit? (n + (fractionBits parts.2 precision).toNat)

/-- The scaled number without its sign. -/
def magnitude? (precision : Nat) (d : Decimal) : Option Nat :=
  if d.isZero then some 0 else (split? d.digits (pointOf d)).bind (scale? precision)

/-- The element of the field for a magnitude with a sign: below `2 ^ 64`, or down to `-2 ^ 63`. -/
def element? (negative : Bool) (magnitude : Nat) : Option UInt64 :=
  if negative then
    if magnitude ≤ 1 <<< 63 then some (-UInt64.ofNat magnitude) else none
  else if magnitude < UInt64.size then some (UInt64.ofNat magnitude)
  else none

/-- The element of the field for a decimal number. -/
def ofDecimal? (precision : Nat) (d : Decimal) : Option UInt64 :=
  (magnitude? precision d).bind (element? d.negative)

/-- Reads a decimal number, around which there may be white space. -/
def encode (precision : Nat) (text : String) : Except FieldError UInt64 :=
  match Decimal.parse? (Text.trim text.toList) with
  | none => .error (.mismatch (.notDecimal text))
  | some d =>
    match ofDecimal? precision d with
    | none => .error (.overflow text)
    | some n => .ok n

/-- The number that an element of the field stands for, rounded to a floating-point number. A word
divided by a power of two is always in range. -/
def decode (precision : Nat) (n : UInt64) : Double :=
  let signed := n.toInt64.toInt
  (Double.ofRatio? (signed < 0) signed.natAbs (1 <<< precision)).getD (Double.zero false)

end TriShare.FixedPoint
