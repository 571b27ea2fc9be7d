import Mathlib.Data.List.Sort
import Mathlib.Data.String.Basic
import TriShare.Container.NameSet
/-!
A set of names is known by its members: there is one set only with given members (`ext`), and the
set of a list has the names of the list, whatever their order and repetition (`mem_ofList`).
-/

namespace TriShare

namespace Entries

variable {α : Type} {name other : String}

theorem mem_names_alter {f : Option α → α} {entries : List (String × α)} :
    other ∈ (alter name f entries).map Prod.fst ↔
      other = name ∨ other ∈ entries.map Prod.fst := by
  induction entries with
  | nil => simp [alter]
  | cons e rest ih =>
    obtain ⟨key, value⟩ := e
    rw [alter]
    split
    · simp
    · split
      · next h => simp [h]
      · rw [List.map_cons, List.mem_cons, ih, List.map_cons, List.mem_cons, or_left_comm]

theorem mem_names_foldl_insert {entries : List (String × α)} : ∀ {acc : List (String × α)},
    other ∈ (entries.foldl (fun acc (name, value) => insert name value acc) acc).map Prod.fst ↔
      other ∈ entries.map Prod.fst ∨ other ∈ acc.map Prod.fst := by
  induction entries with
  | nil => simp
  | cons e rest ih =>
    intro acc
    obtain ⟨key, value⟩ := e
    have halter : other ∈ (insert key value acc).map Prod.fst ↔
        other = key ∨ other ∈ acc.map Prod.fst := mem_names_alter
    rw [List.foldl_cons, ih, halter, List.map_cons, List.mem_cons, or_left_comm, or_assoc]

/-- No name is lost, and none is made up. -/
theorem mem_names_ofList {entries : List (String × α)} :
    other ∈ (ofList entries).map Prod.fst ↔ other ∈ entries.map Prod.fst := by
  rw [ofList, mem_names_foldl_insert]
  simp

end Entries

namespace NameSet

variable {s t : NameSet} {name : String}

/-- Two sets with the same members are one. -/
theorem ext (h : ∀ name, name ∈ s.names ↔ name ∈ t.names) : s = t := by
  obtain ⟨names, ordered⟩ := s
  obtain ⟨names', ordered'⟩ := t
  obtain rfl := ordered.eq_of_mem_iff ordered' h
  rfl

theorem mem_ofList {names : List String} : name ∈ (ofList names).names ↔ name ∈ names := by
  have hnames : (names.map fun name => (name, ())).map Prod.fst = names := by
    rw [List.map_map]
    exact List.map_id names
  have hmem : name ∈ (ofList names).names ↔
      name ∈ (names.map fun name => (name, ())).map Prod.fst := Entries.mem_names_ofList
  rw [hmem, hnames]

theorem ofList_congr {names names' : List String} (h : ∀ name, name ∈ names ↔ name ∈ names') :
    ofList names = ofList names' :=
  ext fun name => by rw [mem_ofList, mem_ofList, h]

theorem contains_iff : s.contains name = true ↔ name ∈ s.names := List.contains_iff_mem

/-- Sets without a common name. -/
theorem firstCommon?_eq_none_iff :
    s.firstCommon? t = none ↔ ∀ name ∈ s.names, name ∉ t.names := by
  rw [firstCommon?, List.find?_eq_none]
  simp only [contains_iff]

end NameSet

end TriShare
