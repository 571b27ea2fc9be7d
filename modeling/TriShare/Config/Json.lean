import TriShare.Config.Basic
import TriShare.Json.Reader
/-!
Configurations as JSON documents: an object of up to four fields, or an array of up to four items
in the same order. What is missing has its default; other fields of an object are skipped.
-/

namespace TriShare.Config

def precisionField : String := "precision_bits"

def widthField : String := "field_bits"

def numericField : String := "numeric_columns"

def passthroughField : String := "passthrough_columns"

/-- The fields of a configuration in their order. -/
def fieldNames : List String := [precisionField, widthField, numericField, passthroughField]

/-- The value given for a field at most once. -/
def optional {α : Type} (absent : α) (decode : Json → Option α) : List Json → Option α
  | [] => some absent
  | [v] => decode v
  | _ => none

def bits? (v : Json) : Option UInt32 := (v.natBelow? UInt32.size).map UInt32.ofNat

def names? (v : Json) : Option NameSet := v.strings?.map NameSet.ofList

/-- The configuration for the values given for each field. -/
def ofValues? (precision width numeric passthrough : List Json) : Option Config :=
  match optional default.precisionBits bits? precision, optional default.fieldBits bits? width,
    optional default.numericColumns names? numeric,
    optional default.passthroughColumns names? passthrough with
  | some precision, some width, some numeric, some passthrough =>
    some ⟨precision, width, numeric, passthrough⟩
  | _, _, _, _ => none

/-- The configuration of a document. -/
def ofJson? : Json → Option Config
  | .object fields =>
    let values name := Json.valuesOf name fields
    ofValues? (values precisionField) (values widthField) (values numericField)
      (values passthroughField)
  | .array items =>
    let value (i : Nat) := (items[i]?).toList
    if items.length ≤ 4 then ofValues? (value 0) (value 1) (value 2) (value 3) else none
  | _ => none

/-- Reads a configuration, which may still be inconsistent. -/
def parse? (text : String) : Option Config :=
  (Json.readKnown? fieldNames.contains text).bind ofJson?

/-- Reads a consistent configuration. -/
def read (text : String) : Except ConfigFault Config :=
  match parse? text with
  | none => .error .notJson
  | some c =>
    match c.fault? with
    | none => .ok c
    | some fault => .error fault

end TriShare.Config
