import TriShare.Number.Basic
/-!
JSON documents. The fields of an object stand in the order in which they are written, repeated
names included; what a repetition means is for the reader of a particular document to say.
-/

namespace TriShare

/-- A JSON value. -/
inductive Json
  | null
  | bool (b : Bool)
  | number (n : Number)
  | string (s : String)
  | array (items : List Json)
  | object (fields : List (String × Json))
  deriving Repr

namespace Json

/-- How many arrays and objects deep a document may be nested. -/
def maxDepth : Nat := 127

/-- A natural number as a JSON number. -/
def nat (n : Nat) : Json := .number (.integer n)

/-- The value of a string. -/
def string? : Json → Option String
  | .string s => some s
  | _ => none

/-- The value of an integer that is not negative and below `bound`. -/
def natBelow? (bound : Nat) : Json → Option Nat
  | .number (.integer n) => if 0 ≤ n ∧ n < bound then some n.toNat else none
  | _ => none

/-- The strings of an array of strings. -/
def strings? : Json → Option (List String)
  | .array items => items.mapM string?
  | _ => none

/-- The values of the fields with a given name. -/
def valuesOf (name : String) (fields : List (String × Json)) : List Json :=
  fields.filterMap fun (key, value) => if key = name then some value else none

end Json

end TriShare
