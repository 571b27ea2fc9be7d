/-!
Decimal numbers as they are written: a sign, digits before and after a point, and an exponent of
ten. The grammar is `[+-]? D* (. D*)? ([eE] [+-]? D+)?` with at least one digit before the
exponent, where `D` is one of the ten ASCII digits.
-/

namespace TriShare

/-- A decimal number: its digits, most significant first, and where the point stands. -/
structure Decimal where
  negative : Bool
  whole : List Nat
  fraction : List Nat
  exponent : Int
  deriving DecidableEq, Repr

namespace Decimal

/-- The value of an ASCII digit. -/
def digit? (c : Char) : Option Nat :=
  if '0' ≤ c ∧ c ≤ '9' then some (c.toNat - 48) else none

/-- The values of a row of digits. -/
def digits? : List Char → Option (List Nat)
  | [] => some []
  | c :: cs =>
    match digit? c, digits? cs with
    | some d, some ds => some (d :: ds)
    | _, _ => none

/-- The number that a row of digits stands for. -/
def ofDigits (ds : List Nat) : Nat := ds.foldl (fun n d => 10 * n + d) 0

/-- The characters before the first separator and, if there is one, those after it. -/
def cut (separates : Char → Bool) : List Char → List Char × Option (List Char)
  | [] => ([], none)
  | c :: cs =>
    if separates c then ([], some cs)
    else
      let (before, after) := cut separates cs
      (c :: before, after)

/-- Takes a leading sign off; the flag tells a minus. -/
def unsign : List Char → Bool × List Char
  | '-' :: cs => (true, cs)
  | '+' :: cs => (false, cs)
  | cs => (false, cs)

/-- An integer with an optional sign and at least one digit. -/
def integer? (cs : List Char) : Option Int :=
  let (negative, cs) := unsign cs
  match digits? cs with
  | none | some [] => none
  | some ds => some (if negative then -(ofDigits ds : Int) else ofDigits ds)

/-- The exponent after its mark; without a mark it is zero. -/
def exponent? : Option (List Char) → Option Int
  | none => some 0
  | some cs => integer? cs

def isExponentMark (c : Char) : Bool := c == 'e' || c == 'E'

def isPoint (c : Char) : Bool := c == '.'

/-- Reads a decimal number that takes up all of the characters. -/
def parse? (cs : List Char) : Option Decimal :=
  let (negative, cs) := unsign cs
  let (mantissa, power) := cut isExponentMark cs
  let (whole, fraction) := cut isPoint mantissa
  match digits? whole, digits? (fraction.getD []), exponent? power with
  | some [], some [], _ => none
  | some whole, some fraction, some exponent => some ⟨negative, whole, fraction, exponent⟩
  | _, _, _ => none

/-- All digits, without regard to the point. -/
def digits (d : Decimal) : List Nat := d.whole ++ d.fraction

/-- Whether every digit is zero. -/
def isZero (d : Decimal) : Bool := d.digits.all (· == 0)

end Decimal

end TriShare
