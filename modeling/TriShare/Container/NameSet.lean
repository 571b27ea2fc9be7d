import TriShare.Container.NameMap
/-!
Finite sets of names in increasing order.
-/

namespace TriShare

/-- A set of names. -/
structure NameSet where
  names : List String
  ordered : names.Pairwise (· < ·)
  deriving DecidableEq

namespace NameSet

/-- The set of the names in a list, whatever their order and repetition. -/
def ofList (names : List String) : NameSet :=
  let m := NameMap.ofList (names.map fun name => (name, ()))
  ⟨m.entries.map (·.1), List.pairwise_map.2 (m.ordered.imp fun h => h)⟩

def contains (s : NameSet) (name : String) : Bool := s.names.contains name

/-- The least name that is in both sets. -/
def firstCommon? (s t : NameSet) : Option String := s.names.find? t.contains

end NameSet

end TriShare
