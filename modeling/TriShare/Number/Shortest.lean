import TriShare.Number.Double
/-!
The shortest decimal that reads back as a given floating-point number: among the decimals with the
fewest digits that round to the number, the nearest to it. A decimal `d * 10 ^ k` rounds to the
number when it lies between the midpoints to the two neighbours, the midpoints counting when the
significand is even.
-/

namespace TriShare.Double

/-- The midpoints to the neighbours below and above, in quarters of a unit of the last binary
place. The neighbour below is half as far away at a power of two. -/
def midpoints (x : Double) : Nat × Nat :=
  let m := 4 * x.significand
  (if x.significand = leadingOne && x.exponent != minExponent then m - 1 else m - 2, m + 2)

/-- Whether `d * 10 ^ k` rounds to the number. -/
def readsBack (x : Double) (d : Nat) (k : Int) : Bool :=
  let (low, high) := midpoints x
  let (unit, parts) := scale 1 1 (2 - x.exponent)
  let value := d * Nat.pow 10 k.toNat * parts
  let low := low * unit * Nat.pow 10 (-k).toNat
  let high := high * unit * Nat.pow 10 (-k).toNat
  if x.significand % 2 == 0 then low ≤ value && value ≤ high else low < value && value < high

/-- The better of the two multiples of `10 ^ k` around the number, if one of them reads back. -/
def onGrid? (x : Double) (k : Int) : Option Nat :=
  let (num, den) := x.ratio
  let num := num * Nat.pow 10 (-k).toNat
  let den := den * Nat.pow 10 k.toNat
  let below := num / den
  let above := below + 1
  match readsBack x below k, readsBack x above k with
  | false, false => none
  | true, false => some below
  | false, true => some above
  | true, true => some (roundQuotient num den)

/-- The exponent of the leading digit of the fraction `num / den`, which is not zero. -/
def leadingExponent (num den : Nat) : Int :=
  if den ≤ num then ((Nat.toDigits 10 (num / den)).length : Int) - 1
  else
    let places := (Nat.toDigits 10 (den / num)).length
    if den ≤ num * Nat.pow 10 (places - 1) then 1 - (places : Int) else -(places : Int)

/-- The shortest decimal `d * 10 ^ k` of a number other than zero. Seventeen digits always do. -/
def shortest (x : Double) : Nat × Int :=
  let (num, den) := x.ratio
  let lead := leadingExponent num den
  let grids := (List.range 17).map fun (n : Nat) => lead - n
  (grids.findSome? fun k => (onGrid? x k).map fun d => (d, k)).getD (0, 0)

end TriShare.Double
