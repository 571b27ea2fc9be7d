import TriShare.Number.Decimal
import TriShare.Number.Shortest
/-!
The numbers of a JSON document and their text. An integer literal of 64 bits stands for itself,
every other literal for a floating-point number at most a few units away in its last place.
-/

namespace TriShare

/-- A JSON number. -/
inductive Number
  | integer (n : Int)
  | double (x : Double)
  deriving DecidableEq, Repr

namespace Number

/-- Integers that are kept exactly: those of 64 bits, signed or unsigned. -/
def isExact (n : Int) : Bool := Int64.minValue.toInt ≤ n && n < UInt64.size

/-- Appends digits to a number as long as it has 64 bits, and gives the digits that are left. -/
def takeDigits (n : Nat) : List Nat → Nat × List Nat
  | [] => (n, [])
  | d :: ds => if UInt64.size ≤ 10 * n + d then (n, d :: ds) else takeDigits (10 * n + d) ds

/-- The floating-point number of a decimal, if it is in the range. Digits that do not go into 64
bits are passed over, but for the places that they take before the point; behind the point digits
are taken again. -/
def doubleOf? (d : Decimal) : Option Double :=
  let (n, wholeRest) := takeDigits 0 d.whole
  let (n, fractionRest) := takeDigits n d.fraction
  let e := d.exponent + wholeRest.length - (d.fraction.length - fractionRest.length : Nat)
  ((Double.ofRatio? false n 1).bind fun x => x.timesTen? e).map fun x =>
    { x with negative := d.negative }

/-- The number of a literal, if it is not beyond the floating-point range. A negative zero is not
an integer. -/
def ofLiteral? (literal : List Char) : Option Number :=
  let written := literal.any fun c => Decimal.isPoint c || Decimal.isExponentMark c
  match Decimal.parse? literal with
  | none => none
  | some d =>
    let n := Decimal.ofDigits d.digits
    let signed : Int := if d.negative then -(n : Int) else n
    if !written && isExact signed && !(d.negative && n == 0) then some (.integer signed)
    else (doubleOf? d).map .double

/-- The least and the greatest exponent of the leading digit that are written without an exponent
mark. -/
def plainExponents : Int × Int := (-5, 15)

/-- The digits without the zeros at their end, of which the first digit is none. -/
def significant (ds : List Char) : List Char :=
  match ds with
  | [] => []
  | d :: ds => d :: (ds.reverse.dropWhile (· == '0')).reverse

/-- The text of `0.d₁d₂… * 10 ^ (lead + 1)`: always with a point when written plainly, else with a
signed exponent and a point only between digits. -/
def layOut (ds : List Char) (lead : Int) : List Char :=
  let (least, greatest) := plainExponents
  if lead < least || greatest < lead then
    let mantissa := match ds with
      | d :: e :: rest => d :: '.' :: e :: rest
      | _ => ds
    let sign := if lead < 0 then '-' else '+'
    mantissa ++ 'e' :: sign :: Nat.toDigits 10 lead.natAbs
  else if lead < 0 then
    '0' :: '.' :: (List.replicate (lead.natAbs - 1) '0' ++ ds)
  else
    let n := lead.toNat + 1
    let whole := ds.take n ++ List.replicate (n - ds.length) '0'
    let fraction := if ds.length ≤ n then ['0'] else ds.drop n
    whole ++ '.' :: fraction

/-- The shortest text of a floating-point number. -/
def doubleText (x : Double) : List Char :=
  let magnitude :=
    if x.significand = 0 then ['0', '.', '0']
    else
      let (d, k) := x.shortest
      let ds := Nat.toDigits 10 d
      layOut (significant ds) (k + ds.length - 1)
  if x.negative then '-' :: magnitude else magnitude

/-- The text of an integer. -/
def integerText (n : Int) : List Char :=
  if n < 0 then '-' :: Nat.toDigits 10 n.natAbs else Nat.toDigits 10 n.natAbs

/-- The text of a number. -/
def text : Number → String
  | .integer n => String.ofList (integerText n)
  | .double x => String.ofList (doubleText x)

end Number

end TriShare
