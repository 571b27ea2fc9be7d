import TriShare.Container.Entries
import TriShare.Number.Basic
/-!
Records: named columns in the order of their names, each of which holds a single value or a nested
record. A plaintext record and a party's view of it are trees of one kind, with different leaves.
-/

namespace TriShare

/-- What a column holds: a leaf, or a nested record. -/
inductive Tree (α : Type)
  | leaf (a : α)
  | node (fields : List (String × Tree α))
  deriving Repr

/-- The columns of a record. -/
abbrev Fields (α : Type) := List (String × Tree α)

/-- A plaintext value that is no record. Nothing in an array is ever used, so none of it is kept. -/
inductive Scalar
  | null
  | bool (b : Bool)
  | number (n : Number)
  | text (s : String)
  | array
  deriving DecidableEq, Repr

/-- A plaintext value. -/
abbrev Value := Tree Scalar

/-- A plaintext record. -/
abbrev Record := Fields Scalar

/-- What a party holds in a column: a share, or the plaintext of a passthrough column. -/
abbrev PartyValue := Tree String

/-- A record as a party sees it. -/
abbrev PartyRecord := Fields String

/-- A table as a party sees it. -/
abbrev PartyTable := List PartyRecord

/-- A column within a nested record is named by the columns around it, joined with points. An empty
path is that of the outermost record. -/
def joinPath (path name : String) : String := if path = "" then name else path ++ "." ++ name

namespace Tree

mutual

/-- How many records deep a value is nested. -/
def depth {α : Type} : Tree α → Nat
  | .leaf _ => 0
  | .node fields => depthFields fields + 1

/-- How many records deep the columns of a record are nested. -/
def depthFields {α : Type} : List (String × Tree α) → Nat
  | [] => 0
  | (_, t) :: rest => max (depth t) (depthFields rest)

end

end Tree

end TriShare
