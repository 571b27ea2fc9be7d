import TriShare.Number.FixedPoint
import TriShare.Sharing.Additive
import TriShare.Sharing.Bytewise
/-!
Sharing of records and tables. The columns of a record are shared in order, nested records in
place, and each draws what it needs from one source. The first value that cannot be shared ends the
sharing; nothing has been drawn for it.
-/

namespace TriShare

/-- The texts that the parties get for a single value. -/
def Content.share (precision : Nat) : Content → Source → Except FieldError (Triple String) × Source
  | .numeric text, source =>
    match FixedPoint.encode precision text with
    | .error e => (.error e, source)
    | .ok num =>
      let (components, source) := Additive.draw num source
      (.ok ((Additive.shares components).map PartyShare.text), source)
  | .passthrough text, source => (.ok (Triple.all text), source)
  | .bytes text, source =>
    match Latin1.encode text with
    | .error found => (.error (.unencodable found), source)
    | .ok plain =>
      let (components, source) := Bytewise.draw plain source
      (.ok ((Bytewise.shares components).map PartyShare.text), source)

/-- The views of a single value in the column at a path. -/
def shareScalar (schema : Schema) (path : String) (c : ColumnClass) (x : Scalar) (source : Source) :
    Except Rejection (Triple PartyValue) × Source :=
  match c.content x with
  | .error e => (.error ⟨path, e⟩, source)
  | .ok content =>
    match content.share schema.precision source with
    | (.error e, source) => (.error ⟨path, e⟩, source)
    | (.ok texts, source) => (.ok (texts.map .leaf), source)

mutual

/-- The views of what stands in the column at a path. -/
def shareValue (schema : Schema) (path : String) (c : ColumnClass) :
    Value → Source → Except Rejection (Triple PartyValue) × Source
  | .leaf x, source => shareScalar schema path c x source
  | .node fields, source =>
    match c with
    | .shared =>
      match shareFields schema path fields source with
      | (.error r, source) => (.error r, source)
      | (.ok views, source) => (.ok (views.map .node), source)
    | c => (.error ⟨path, c.refuse .record⟩, source)

/-- The views of the columns of the record at a path. -/
def shareFields (schema : Schema) (path : String) :
    List (String × Value) → Source → Except Rejection (Triple PartyRecord) × Source
  | [], source => (.ok (Triple.all []), source)
  | (name, v) :: rest, source =>
    match shareValue schema (joinPath path name) (schema.classAt path name) v source with
    | (.error r, source) => (.error r, source)
    | (.ok view, source) =>
      match shareFields schema path rest source with
      | (.error r, source) => (.error r, source)
      | (.ok views, source) =>
        (.ok (Triple.zipWith (fun t ts => (name, t) :: ts) view views), source)

end

/-- The views of a record. The index is that of the record in its table, for errors only. -/
def shareRecord (schema : Schema) (index : Nat) (record : Record) (source : Source) :
    Except Error (Triple PartyRecord) × Source :=
  match shareFields schema "" record source with
  | (.error r, source) => (.error (r.inRecord index), source)
  | (.ok views, source) => (.ok views, source)

/-- The views of records, the first of which has the given index. -/
def shareRecords (schema : Schema) (index : Nat) :
    List Record → Source → Except Error (Triple PartyTable) × Source
  | [], source => (.ok (Triple.all []), source)
  | record :: rest, source =>
    match shareRecord schema index record source with
    | (.error e, source) => (.error e, source)
    | (.ok view, source) =>
      match shareRecords schema (index + 1) rest source with
      | (.error e, source) => (.error e, source)
      | (.ok views, source) => (.ok (Triple.zipWith List.cons view views), source)

/-- The views of a table. -/
def shareTable (schema : Schema) (table : List Record) (source : Source) :
    Except Error (Triple PartyTable) × Source :=
  shareRecords schema 0 table source

end TriShare
