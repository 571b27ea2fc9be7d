import TriShare.Container.Entries
/-!
Finite maps from names, kept in the order of the names, so that two maps are equal exactly when
they hold the same entries.
-/

namespace TriShare

/-- A map from names. -/
structure NameMap (α : Type) where
  entries : List (String × α)
  ordered : Entries.Ordered entries
  deriving DecidableEq

namespace NameMap

variable {α β : Type}

def empty : NameMap α := ⟨[], List.Pairwise.nil⟩

/-- The value under a name. -/
def get? (m : NameMap α) (name : String) : Option α := Entries.get? name m.entries

/-- Replaces the value under a name by a function of what is there. -/
def alter (m : NameMap α) (name : String) (f : Option α → α) : NameMap α :=
  ⟨Entries.alter name f m.entries, m.ordered.alter⟩

/-- The map of a list of entries, of which later ones replace earlier ones. -/
def ofList (entries : List (String × α)) : NameMap α :=
  ⟨Entries.ofList entries, Entries.ordered_ofList entries⟩

/-- The same names with changed values. -/
def map (f : α → β) (m : NameMap α) : NameMap β :=
  ⟨m.entries.map fun (name, value) => (name, f value),
    List.pairwise_map.2 (m.ordered.imp fun h => h)⟩

def size (m : NameMap α) : Nat := m.entries.length

def isEmpty (m : NameMap α) : Bool := m.entries.isEmpty

end NameMap

end TriShare
