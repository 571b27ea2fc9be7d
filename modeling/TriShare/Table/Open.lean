import TriShare.Number.FixedPoint
import TriShare.Party.Basic
import TriShare.Sharing.Additive
import TriShare.Sharing.Bytewise
/-!
Putting the views of the three parties together again: numbers from additive shares, text from
byte shares, and the plaintext of passthrough columns, with a note on whether what the parties hold
twice agrees.
-/

namespace TriShare

/-- What a column opens to. -/
inductive Opened
  | number (n : UInt64) (value : Double) (agrees : Bool)
  | text (s : String) (agrees : Bool)
  | plain (s : String) (agrees : Bool)

namespace Opened

/-- The bytes of both halves of a share. -/
def halves? (text : String) : Option (List UInt8 × List UInt8) :=
  match PartyShare.parse text with
  | .error _ => none
  | .ok share =>
    match Hex.decode share.t, Hex.decode share.s with
    | .ok t, .ok s => some (t, s)
    | _, _ => none

/-- The combinations and the components that the parties hold. -/
def gather? (view : Triple String) : Option (Triple (List UInt8) × Triple (List UInt8)) :=
  match halves? view.p1, halves? view.p2, halves? view.p3 with
  | some (t1, s1), some (t2, s2), some (t3, s3) => some (⟨t1, t2, t3⟩, ⟨s1, s2, s3⟩)
  | _, _, _ => none

/-- Opens a single value of a column. -/
def ofTexts? (precision : Nat) (c : ColumnClass) (view : Triple String) : Option Opened :=
  match c with
  | .passthrough => some (.plain view.p1 (view.p1 == view.p2 && view.p2 == view.p3))
  | .numeric =>
    (gather? view).map fun (t, s) =>
      let components := s.map Bytes.toWord
      let n := Additive.reconstruct components
      .number n (FixedPoint.decode precision n)
        (t.map Bytes.toWord == Additive.redundant components)
  | .shared =>
    (gather? view).map fun (t, s) =>
      .text (Latin1.decode (Bytewise.reconstruct s)) (t == Bytewise.redundant s)

end Opened

mutual

/-- Opens what stands in a column, if the parties' views have the same shape. -/
def openValue? (schema : Schema) (path : String) (c : ColumnClass) :
    PartyValue → PartyValue → PartyValue → Option (Tree Opened)
  | .leaf s1, .leaf s2, .leaf s3 => (Opened.ofTexts? schema.precision c ⟨s1, s2, s3⟩).map .leaf
  | .node r1, .node r2, .node r3 => (openFields? schema path r1 r2 r3).map .node
  | _, _, _ => none

/-- Opens the columns of the record at a path. -/
def openFields? (schema : Schema) (path : String) :
    List (String × PartyValue) → List (String × PartyValue) → List (String × PartyValue) →
      Option (Fields Opened)
  | [], [], [] => some []
  | (n1, v1) :: r1, (n2, v2) :: r2, (n3, v3) :: r3 =>
    if n1 = n2 ∧ n2 = n3 then
      match openValue? schema (joinPath path n1) (schema.classAt path n1) v1 v2 v3,
        openFields? schema path r1 r2 r3 with
      | some v, some rest => some ((n1, v) :: rest)
      | _, _ => none
    else none
  | _, _, _ => none

end

/-- Opens the tables of the three parties record by record. -/
def openTables? (schema : Schema) : PartyTable → PartyTable → PartyTable →
    Option (List (Fields Opened))
  | [], [], [] => some []
  | r1 :: t1, r2 :: t2, r3 :: t3 =>
    match openFields? schema "" r1 r2 r3, openTables? schema t1 t2 t3 with
    | some r, some rest => some (r :: rest)
    | _, _ => none
  | _, _, _ => none

/-- Opens the views of a table. -/
def openTable? (schema : Schema) (views : Triple PartyTable) : Option (List (Fields Opened)) :=
  openTables? schema views.p1 views.p2 views.p3

end TriShare
