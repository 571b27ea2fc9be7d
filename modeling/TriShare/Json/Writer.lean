import TriShare.Json.Basic
import TriShare.Text.Hex
/-!
JSON text over several lines: every item and field on a line of its own, two spaces deeper than
its container. Empty containers take no line.
-/

namespace TriShare.Json

/-- A character between double quotes. -/
def escapeChar (c : Char) : String :=
  match c with
  | '"' => "\\\""
  | '\\' => "\\\\"
  | '\x08' => "\\b"
  | '\x0c' => "\\f"
  | '\n' => "\\n"
  | '\r' => "\\r"
  | '\t' => "\\t"
  | c => if c.toNat < 0x20 then "\\u00" ++ Hex.encode [UInt8.ofNat c.toNat] else c.toString

/-- A string in double quotes. -/
def quote (s : String) : String :=
  "\"" ++ String.join (s.toList.map escapeChar) ++ "\""

/-- The beginning of a line at a depth. -/
def newLine (depth : Nat) : String := "\n" ++ String.ofList (List.replicate (2 * depth) ' ')

mutual

/-- The text of a value that begins at a depth. -/
def renderAt (depth : Nat) : Json → String
  | .null => "null"
  | .bool b => if b then "true" else "false"
  | .number n => n.text
  | .string s => quote s
  | .array [] => "[]"
  | .array (v :: vs) =>
    "[" ++ newLine (depth + 1) ++ renderAt (depth + 1) v ++ renderItems (depth + 1) vs
      ++ newLine depth ++ "]"
  | .object [] => "\x7b\x7d"
  | .object ((name, v) :: fields) =>
    "\x7b" ++ newLine (depth + 1) ++ quote name ++ ": " ++ renderAt (depth + 1) v
      ++ renderFields (depth + 1) fields ++ newLine depth ++ "\x7d"

/-- The items after the first. -/
def renderItems (depth : Nat) : List Json → String
  | [] => ""
  | v :: vs => "," ++ newLine depth ++ renderAt depth v ++ renderItems depth vs

/-- The fields after the first. -/
def renderFields (depth : Nat) : List (String × Json) → String
  | [] => ""
  | (name, v) :: fields =>
    "," ++ newLine depth ++ quote name ++ ": " ++ renderAt depth v ++ renderFields depth fields

end

/-- The text of a document, without a line end after it. -/
def render (v : Json) : String := renderAt 0 v

end TriShare.Json
