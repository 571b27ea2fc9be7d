import TriShare.Container.NameMap
import TriShare.Json.Reader
import TriShare.Schema.Basic
/-!
The widths of columns in blocks of sixteen bytes, marked with the schema under which they were
found. The columns of nested records stand under their own names, without the path to them.
-/

namespace TriShare

/-- How many blocks each column takes. -/
structure Widths where
  fingerprint : String
  columns : NameMap Nat
  deriving DecidableEq

namespace Widths

/-- The width of a column. -/
def blocks? (w : Widths) (name : String) : Option Nat := w.columns.get? name

/-- Whether the widths were found under a schema. -/
def check (w : Widths) (schema : Schema) : Except Error Unit :=
  if w.fingerprint = schema.fingerprint then .ok ()
  else .error (.otherSchema w.fingerprint schema.fingerprint)

def fingerprintField : String := "fingerprint"

def columnsField : String := "columns"

def fieldNames : List String := [fingerprintField, columnsField]

/-- The document of widths. -/
def toJson (w : Widths) : Json :=
  .object [(fingerprintField, .string w.fingerprint),
    (columnsField, .object (w.columns.entries.map fun (name, blocks) => (name, .nat blocks)))]

/-- The width of a single column, an integer of 64 bits. -/
def columnOfField? : String × Json → Option (String × Nat)
  | (name, v) => (v.natBelow? UInt64.size).map fun blocks => (name, blocks)

/-- The widths of all columns. -/
def columnsOfJson? : Json → Option (NameMap Nat)
  | .object fields => (fields.mapM columnOfField?).map NameMap.ofList
  | _ => none

/-- The widths with these fields. -/
def ofValues? (fingerprint columns : Json) : Option Widths :=
  match fingerprint.string?, columnsOfJson? columns with
  | some fingerprint, some columns => some ⟨fingerprint, columns⟩
  | _, _ => none

/-- The widths of a document: an object with both fields, or an array of both in order. -/
def ofJson? : Json → Option Widths
  | .object fields =>
    match Json.valuesOf fingerprintField fields, Json.valuesOf columnsField fields with
    | [fingerprint], [columns] => ofValues? fingerprint columns
    | _, _ => none
  | .array [fingerprint, columns] => ofValues? fingerprint columns
  | _ => none

/-- Reads widths; other fields of an object are skipped. -/
def read? (text : String) : Option Widths :=
  (Json.readKnown? fieldNames.contains text).bind ofJson?

end Widths

end TriShare
