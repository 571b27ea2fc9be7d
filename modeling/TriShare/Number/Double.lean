/-!
Binary floating-point numbers of 64 bits, finite ones only, kept as a sign and a significand times
a power of two. A rational number is rounded to the nearest of them, a tie going to the even
significand.
-/

namespace TriShare

/-- The number `± significand * 2 ^ exponent`. In normal form the significand is below `2 ^ 53`,
the exponent is at least `-1074`, and the significand is below `2 ^ 52` only at that exponent. -/
structure Double where
  negative : Bool
  significand : Nat
  exponent : Int
  deriving DecidableEq, Repr

namespace Double

/-- The leading one of a significand that has all of its bits. -/
def leadingOne : Nat := 1 <<< 52

/-- The least exponent. -/
def minExponent : Int := -1074

/-- The greatest exponent. -/
def maxExponent : Int := 971

/-- Zero with a sign. -/
def zero (negative : Bool) : Double := ⟨negative, 0, minExponent⟩

/-- `num / den / 2 ^ e` as a fraction of natural numbers. -/
def scale (num den : Nat) (e : Int) : Nat × Nat :=
  (num <<< (-e).toNat, den <<< e.toNat)

/-- The exponent at which `num / den` has a significand of 53 bits, or the least exponent. -/
def exponentOf (num den : Nat) : Int :=
  let guess : Int := (num.log2 : Int) - den.log2 - 52
  let (n, d) := scale num den guess
  let exact := if n / d < leadingOne then guess - 1 else guess
  max exact minExponent

/-- The quotient rounded to the nearest integer, a half going to the even one. -/
def roundQuotient (num den : Nat) : Nat :=
  let q := num / den
  let twice := 2 * (num % den)
  if twice < den || (twice == den && q % 2 == 0) then q else q + 1

/-- The nearest number to `± num / den`, if it is not beyond the greatest. -/
def ofRatio? (negative : Bool) (num den : Nat) : Option Double :=
  if num = 0 then some (zero negative)
  else
    let e := exponentOf num den
    let (n, d) := scale num den e
    let q := roundQuotient n d
    let (q, e) := if q = 2 * leadingOne then (leadingOne, e + 1) else (q, e)
    if e ≤ maxExponent then some ⟨negative, q, e⟩ else none

/-- The 64 bits: sign, biased exponent, significand without its leading one. -/
def toBits (x : Double) : UInt64 :=
  let sign := if x.negative then 1 <<< 63 else 0
  let biased := (x.exponent - minExponent).toNat * leadingOne
  UInt64.ofNat (sign + biased + x.significand)

/-- The number as a fraction of natural numbers, without its sign. -/
def ratio (x : Double) : Nat × Nat := scale x.significand 1 (-x.exponent)

/-! ### Arithmetic -/

/-- The product, rounded, if it is finite. -/
def mul? (x y : Double) : Option Double :=
  ofRatio? (x.negative != y.negative) (x.ratio.1 * y.ratio.1) (x.ratio.2 * y.ratio.2)

/-- The quotient, rounded, if it is finite. -/
def div? (x y : Double) : Option Double :=
  if y.significand = 0 then none
  else ofRatio? (x.negative != y.negative) (x.ratio.1 * y.ratio.2) (x.ratio.2 * y.ratio.1)

/-- The greatest exponent of a power of ten in the range. -/
def maxTen : Nat := 308

/-- A power of ten, rounded. -/
def ten? (k : Nat) : Option Double := ofRatio? false (Nat.pow 10 k) 1

/-- The number times a power of ten. The power is rounded before the product is, and a power below
the range is taken in several steps, so that this is not always the number next to the exact
product. -/
def timesTen? (x : Double) (e : Int) : Option Double :=
  if e.natAbs ≤ maxTen then
    (ten? e.natAbs).bind fun power => if 0 ≤ e then x.mul? power else x.div? power
  else if x.significand = 0 then some x
  else if 0 ≤ e then none
  else ((ten? maxTen).bind x.div?).bind fun y => y.timesTen? (e + maxTen)
termination_by e.natAbs
decreasing_by
  rw [maxTen] at *
  omega

end Double

end TriShare
