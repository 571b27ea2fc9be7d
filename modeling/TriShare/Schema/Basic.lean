import TriShare.Config.Basic
import TriShare.Record.Basic
/-!
The classes of columns under a consistent configuration. The columns of the outermost record are
classified by their names; those of a nested record are always byte-shared, wherever the path to
them is not empty.
-/

namespace TriShare

/-- How the values of a column are treated. -/
inductive ColumnClass
  /-- Decimal numbers, shared additively. -/
  | numeric
  /-- Dates and identifiers, given to every party in the clear. -/
  | passthrough
  /-- Text, shared byte by byte, and nested records. -/
  | shared
  deriving DecidableEq, Repr

/-- What a single value is taken for. -/
inductive Content
  | numeric (text : String)
  | passthrough (text : String)
  | bytes (text : String)
  deriving DecidableEq, Repr

/-- What the value of a column is taken for. -/
inductive Field
  | content (c : Content)
  | nested (fields : Record)

def Scalar.kind : Scalar → ValueKind
  | .null => .null
  | .bool _ => .boolean
  | .number _ => .number
  | .text _ => .string
  | .array => .array

namespace ColumnClass

/-- The error of a value that a column of this class cannot hold. -/
def refuse : ColumnClass → ValueKind → FieldError
  | .numeric, kind => .mismatch (.inNumeric kind)
  | .passthrough, kind => .mismatch (.inPassthrough kind)
  | .shared, kind => .unsupported kind

/-- Truth values in the clear. -/
def boolText (b : Bool) : String := if b then "True" else "False"

/-- What a column of this class takes a single value for: texts and numbers are decimal numbers in a
numeric column, truth values are texts only in a passthrough column. -/
def content : ColumnClass → Scalar → Except FieldError Content
  | .numeric, .text s => .ok (.numeric s)
  | .numeric, .number n => .ok (.numeric n.text)
  | .passthrough, .text s => .ok (.passthrough s)
  | .passthrough, .number n => .ok (.passthrough n.text)
  | .passthrough, .bool b => .ok (.passthrough (boolText b))
  | .shared, .text s => .ok (.bytes s)
  | k, x => .error (k.refuse x.kind)

/-- What a column of this class takes a value for. Only a byte-shared column holds records. -/
def field : ColumnClass → Value → Except FieldError Field
  | k, .leaf x => (k.content x).map .content
  | .shared, .node fields => .ok (.nested fields)
  | k, .node _ => .error (k.refuse .record)

end ColumnClass

/-- A consistent configuration. -/
structure Schema where
  config : Config
  consistent : config.fault? = none

namespace Schema

/-- The schema of a configuration, if the configuration is consistent. -/
def ofConfig (c : Config) : Except ConfigFault Schema :=
  match h : c.fault? with
  | none => .ok ⟨c, h⟩
  | some fault => .error fault

/-- How many bits of a number stand after the point. -/
def precision (s : Schema) : Nat := s.config.precisionBits.toNat

def fingerprint (s : Schema) : String := s.config.fingerprint

/-- The class of a column of the outermost record. -/
def classify (s : Schema) (name : String) : ColumnClass :=
  if s.config.numericColumns.contains name then .numeric
  else if s.config.passthroughColumns.contains name then .passthrough
  else .shared

/-- The class of a column of the record at a path. -/
def classAt (s : Schema) (path name : String) : ColumnClass :=
  if path = "" then s.classify name else .shared

/-- What the value of a column of the outermost record is taken for. -/
def field (s : Schema) (name : String) (v : Value) : Except FieldError Field :=
  (s.classify name).field v

/-- What the value of a column of a nested record is taken for. -/
def subField (v : Value) : Except FieldError Field := ColumnClass.shared.field v

end Schema

end TriShare
