import TriShare.Padding.Block
import TriShare.Party.Share
import TriShare.Profile.Widths
/-!
Finding the widths of columns: a profiler keeps the greatest length of every column name over the
per-party records that it is shown. A record that is rejected is not counted, but what it showed
before the column at fault stays.
-/

namespace TriShare

/-- How many bytes a party's text takes once it is padded. -/
def encodedLength (c : ColumnClass) (text : String) : Except FieldError Nat :=
  match c with
  | .passthrough =>
    match Latin1.encode text with
    | .ok bytes => .ok bytes.length
    | .error found => .error (.unencodable found)
  | c => (PartyShare.parseIn c text).map PartyShare.byteLength

/-- The greater of a length and what is there already. -/
def raise (length : Nat) : Option Nat → Nat
  | none => length
  | some present => max present length

mutual

/-- Takes in what stands in the column with a name, which is at a path. -/
def observeValue (schema : Schema) (path name : String) (c : ColumnClass) :
    PartyValue → NameMap Nat → Except Rejection Unit × NameMap Nat
  | .leaf text, lengths =>
    match encodedLength c text with
    | .error e => (.error ⟨path, e⟩, lengths)
    | .ok length => (.ok (), lengths.alter name (raise length))
  | .node fields, lengths =>
    if c = .shared then observeFields schema path fields lengths
    else (.error ⟨path, .mismatch .nestedRecord⟩, lengths)

/-- Takes in the columns of the record at a path, up to the first at fault. -/
def observeFields (schema : Schema) (path : String) :
    List (String × PartyValue) → NameMap Nat → Except Rejection Unit × NameMap Nat
  | [], lengths => (.ok (), lengths)
  | (name, v) :: rest, lengths =>
    match observeValue schema (joinPath path name) name (schema.classAt path name) v lengths with
    | (.error r, lengths) => (.error r, lengths)
    | (.ok (), lengths) => observeFields schema path rest lengths

end

/-- The greatest lengths so far, and how many records were accepted. -/
structure Profiler where
  schema : Schema
  lengths : NameMap Nat
  records : Nat

namespace Profiler

/-- A profiler that has seen nothing. -/
def new (schema : Schema) : Profiler := ⟨schema, NameMap.empty, 0⟩

/-- Shows a record, which has the given index in its table. -/
def observe (p : Profiler) (index : Nat) (record : PartyRecord) : Except Error Unit × Profiler :=
  match observeFields p.schema "" record p.lengths with
  | (.error r, lengths) => (.error (r.inRecord index), { p with lengths })
  | (.ok (), lengths) => (.ok (), { p with lengths, records := p.records + 1 })

/-- Shows records up to the first that is rejected, the first of them with the given index. -/
def observeFrom (p : Profiler) (index : Nat) : PartyTable → Except Error Unit × Profiler
  | [] => (.ok (), p)
  | record :: rest =>
    match p.observe index record with
    | (.error e, p) => (.error e, p)
    | (.ok (), p) => observeFrom p (index + 1) rest

/-- Shows a table. -/
def observeTable (p : Profiler) (table : PartyTable) : Except Error Unit × Profiler :=
  p.observeFrom 0 table

/-- The widths that hold every length, unless no record was accepted. -/
def finish (p : Profiler) : Except Error Widths :=
  if p.records = 0 then .error .emptyTable
  else .ok ⟨p.schema.fingerprint, p.lengths.map Block.count⟩

end Profiler

end TriShare
