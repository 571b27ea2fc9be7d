import TriShare.Json.Reader
import TriShare.Record.Basic
/-!
Records and tables as JSON documents. Of two columns with the same name the later one stays, but in
a party's record both have to be well formed.
-/

namespace TriShare

mutual

/-- The plaintext value of a document. -/
def Value.ofJson : Json → Value
  | .null => .leaf .null
  | .bool b => .leaf (.bool b)
  | .number n => .leaf (.number n)
  | .string s => .leaf (.text s)
  | .array _ => .leaf .array
  | .object fields => .node (Entries.ofList (Value.ofFields fields))

/-- The columns of an object, as written. -/
def Value.ofFields : List (String × Json) → List (String × Value)
  | [] => []
  | (name, v) :: rest => (name, Value.ofJson v) :: Value.ofFields rest

end

/-- The plaintext record of a document. -/
def Record.ofJson? : Json → Option Record
  | .object fields => some (Entries.ofList (Value.ofFields fields))
  | _ => none

mutual

/-- The per-party value of a document: text, or a record of such values. -/
def PartyValue.ofJson? : Json → Option PartyValue
  | .string s => some (.leaf s)
  | .object fields => (PartyValue.ofFields? fields).map fun fields => .node (Entries.ofList fields)
  | _ => none

/-- The columns of an object, as written. -/
def PartyValue.ofFields? : List (String × Json) → Option (List (String × PartyValue))
  | [] => some []
  | (name, v) :: rest =>
    match PartyValue.ofJson? v, PartyValue.ofFields? rest with
    | some t, some rest => some ((name, t) :: rest)
    | _, _ => none

end

/-- The per-party record of a document. -/
def PartyRecord.ofJson? : Json → Option PartyRecord
  | .object fields => (PartyValue.ofFields? fields).map Entries.ofList
  | _ => none

mutual

/-- The document of a per-party value. -/
def PartyValue.toJson : PartyValue → Json
  | .leaf s => .string s
  | .node fields => .object (PartyRecord.toFields fields)

/-- The fields of a per-party record. -/
def PartyRecord.toFields : List (String × PartyValue) → List (String × Json)
  | [] => []
  | (name, t) :: rest => (name, PartyValue.toJson t) :: PartyRecord.toFields rest

end

/-- The document of a per-party record. -/
def PartyRecord.toJson (r : PartyRecord) : Json := .object (PartyRecord.toFields r)

/-- The records of an array of records. -/
def tableOfJson? {α : Type} (record? : Json → Option α) : Json → Option (List α)
  | .array items => items.mapM record?
  | _ => none

/-- The plaintext table of a document. -/
def Table.ofJson? : Json → Option (List Record) := tableOfJson? Record.ofJson?

/-- The per-party table of a document. -/
def PartyTable.ofJson? : Json → Option PartyTable := tableOfJson? PartyRecord.ofJson?

/-- The document of a per-party table. -/
def PartyTable.toJson (t : PartyTable) : Json := .array (t.map PartyRecord.toJson)

/-- Reads a plaintext record. -/
def Record.read? (text : String) : Option Record := (Json.read? text).bind Record.ofJson?

/-- Reads a plaintext table. -/
def Table.read? (text : String) : Option (List Record) := (Json.read? text).bind Table.ofJson?

/-- Reads a per-party record. -/
def PartyRecord.read? (text : String) : Option PartyRecord :=
  (Json.read? text).bind PartyRecord.ofJson?

/-- Reads a per-party table. -/
def PartyTable.read? (text : String) : Option PartyTable :=
  (Json.read? text).bind PartyTable.ofJson?

end TriShare
