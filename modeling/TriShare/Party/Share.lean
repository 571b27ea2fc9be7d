import TriShare.Error
import TriShare.Schema.Basic
/-!
The share of one party in one value: the combination `t` of two components and the party's own
component `s`, both in hexadecimal, written with a space between them.
-/

namespace TriShare

/-- A party's share. -/
structure PartyShare where
  t : String
  s : String
  deriving DecidableEq, Repr

namespace PartyShare

/-- The share with these bytes. -/
def ofBytes (t s : List UInt8) : PartyShare := ⟨Hex.encode t, Hex.encode s⟩

/-- The text of a share. -/
def text (share : PartyShare) : String := share.t ++ " " ++ share.s

/-- How many bytes the digits of both halves make. -/
def byteLength (share : PartyShare) : Nat := (share.t.utf8ByteSize + share.s.utf8ByteSize) / 2

/-- The bytes of a half. -/
def half (digits : String) : Except FieldError (List UInt8) :=
  match Hex.decode digits with
  | .ok bytes => .ok bytes
  | .error fault => .error (.invalidShare (.undecodable digits fault))

/-- The bytes of `t`, then those of `s`. -/
def bytes (share : PartyShare) : Except FieldError (List UInt8) :=
  match half share.t, half share.s with
  | .ok t, .ok s => .ok (t ++ s)
  | .error e, _ => .error e
  | .ok _, .error e => .error e

/-- The characters before the first space and those after it. -/
def halves? : List Char → Option (List Char × List Char)
  | [] => none
  | c :: cs =>
    if c = ' ' then some ([], cs)
    else (halves? cs).map fun (t, s) => (c :: t, s)

/-- What is wrong with the text of a share, once it is cut at its first space. Further spaces are
not looked at here. -/
def fault? (text t s : String) : Option ShareFault :=
  if t.isEmpty || t.utf8ByteSize ≠ s.utf8ByteSize then
    some (.unequalHalves t.utf8ByteSize s.utf8ByteSize)
  else if !(text.toList.filter (· ≠ ' ')).all Hex.isDigit then some .notHex
  else if t.utf8ByteSize % 2 ≠ 0 then some (.oddDigits t.utf8ByteSize)
  else none

/-- Reads a share. -/
def parse (text : String) : Except ShareFault PartyShare :=
  match halves? text.toList with
  | none => .error .noSpace
  | some (t, s) =>
    let t := String.ofList t
    let s := String.ofList s
    match fault? text t s with
    | some fault => .error fault
    | none => .ok ⟨t, s⟩

/-- Reads the share in a column of a class; in a numeric column its halves have a fixed length. -/
def parseIn (c : ColumnClass) (text : String) : Except FieldError PartyShare :=
  match parse text with
  | .error fault => .error (.invalidShare fault)
  | .ok share =>
    if c = .numeric ∧ share.t.utf8ByteSize ≠ numericShareDigits then
      .error (.invalidShare (.numericDigits share.t.utf8ByteSize))
    else .ok share

end PartyShare

end TriShare
