import TriShare.Profile.Profiler
/-!
Padding: the values of a per-party record in the order of its columns, each filled up to the width
of its column, nested records in place. A width is looked up under the column's own name.
-/

namespace TriShare

/-- The bytes that a party's text stands for. -/
def encodedBytes (c : ColumnClass) (text : String) : Except FieldError (List UInt8) :=
  match c with
  | .passthrough =>
    match Latin1.encode text with
    | .ok bytes => .ok bytes
    | .error found => .error (.unencodable found)
  | c =>
    match PartyShare.parseIn c text with
    | .ok share => share.bytes
    | .error e => .error e

/-- The blocks of a party's text in a column of a class. -/
def padValue (c : ColumnClass) (text : String) (blocks : Nat) :
    Except (Halt FieldError) (List Block) :=
  match encodedBytes c text with
  | .error e => .error (.error e)
  | .ok bytes =>
    match Block.padded bytes blocks with
    | .error cause => .error (.panic cause)
    | .ok none => .error (.error (.tooWide bytes.length blocks))
    | .ok (some padded) => .ok padded

/-- The blocks of a single value in the column with a name, which is at a path. -/
def padLeaf (w : Widths) (index : Nat) (path name : String) (c : ColumnClass) (text : String) :
    Except (Halt Error) (List Block) :=
  match w.blocks? name with
  | none => .error (.error (.noWidth path))
  | some blocks => (padValue c text blocks).mapError (Halt.map (.field index path))

mutual

/-- The blocks of what stands in the column with a name, which is at a path. -/
def padTree (schema : Schema) (w : Widths) (index : Nat) (path name : String) (c : ColumnClass) :
    PartyValue → Except (Halt Error) (List Block)
  | .leaf text => padLeaf w index path name c text
  | .node fields => padFields schema w index path fields

/-- The blocks of the columns of the record at a path. -/
def padFields (schema : Schema) (w : Widths) (index : Nat) (path : String) :
    List (String × PartyValue) → Except (Halt Error) (List Block)
  | [] => .ok []
  | (name, v) :: rest =>
    match padTree schema w index (joinPath path name) name (schema.classAt path name) v with
    | .error e => .error e
    | .ok row => (padFields schema w index path rest).map (row ++ ·)

end

/-- The row of a record, which has the given index in its table. -/
def padRecord (schema : Schema) (w : Widths) (index : Nat) (record : PartyRecord) :
    Except (Halt Error) (List Block) :=
  match w.check schema with
  | .error e => .error (.error e)
  | .ok () => padFields schema w index "" record

/-- The rows of records, the first of which has the given index. -/
def padRecords (schema : Schema) (w : Widths) (index : Nat) :
    PartyTable → Except (Halt Error) (List (List Block))
  | [] => .ok []
  | record :: rest =>
    match padFields schema w index "" record with
    | .error e => .error e
    | .ok row => (padRecords schema w (index + 1) rest).map (row :: ·)

/-- The rows of a table. -/
def padTable (schema : Schema) (w : Widths) (table : PartyTable) :
    Except (Halt Error) (List (List Block)) :=
  match w.check schema with
  | .error e => .error (.error e)
  | .ok () => padRecords schema w 0 table

end TriShare
