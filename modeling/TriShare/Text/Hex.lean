/-!
Hexadecimal text: two digits for each byte, the high half first. Writing uses lower-case digits,
reading takes both cases.
-/

namespace TriShare.Hex

/-- The digit of a number below sixteen. -/
def digit (n : Nat) : Char :=
  if n < 10 then Char.ofNat (48 + n) else Char.ofNat (87 + n)

/-- The number that a hexadecimal digit of either case stands for. -/
def value? (c : Char) : Option Nat :=
  if '0' ≤ c ∧ c ≤ '9' then some (c.toNat - 48)
  else if 'a' ≤ c ∧ c ≤ 'f' then some (c.toNat - 87)
  else if 'A' ≤ c ∧ c ≤ 'F' then some (c.toNat - 55)
  else none

/-- Whether a character is a hexadecimal digit of either case. -/
def isDigit (c : Char) : Bool := (value? c).isSome

/-- The two digits of a byte. -/
def digits (b : UInt8) : List Char := [digit (b.toNat / 16), digit (b.toNat % 16)]

/-- The bytes as lower-case text without separators. -/
def encode (bytes : List UInt8) : String := String.ofList (bytes.flatMap digits)

/-- Why a text is not hexadecimal. -/
inductive Fault
  | oddLength
  /-- The byte at `position` of the text's UTF-8 form is no digit. -/
  | badDigit (byte : UInt8) (position : Nat)
  deriving DecidableEq, Repr

/-- The first byte of a character's UTF-8 form. -/
def leadByte (c : Char) : UInt8 := (String.utf8EncodeChar c).headD 0

/-- The values of the digits, the first of which stands at `position`. -/
def valuesFrom (position : Nat) : List Char → Except Fault (List Nat)
  | [] => .ok []
  | c :: cs =>
    match value? c with
    | some n => (valuesFrom (position + 1) cs).map (n :: ·)
    | none => .error (.badDigit (leadByte c) position)

/-- A byte for every two digit values. -/
def pairUp : List Nat → List UInt8
  | high :: low :: rest => UInt8.ofNat (16 * high + low) :: pairUp rest
  | _ => []

/-- The bytes that a text of digits stands for. The length is looked at before the digits, and is
counted in bytes, as are the positions. -/
def decode (text : String) : Except Fault (List UInt8) :=
  if text.utf8ByteSize % 2 = 1 then .error .oddLength
  else (valuesFrom 0 text.toList).map pairUp

end TriShare.Hex
