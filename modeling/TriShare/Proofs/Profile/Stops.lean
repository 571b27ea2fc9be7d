import Mathlib.Data.List.TakeWhile
import TriShare.Proofs.Profile.Lengths
/-!
What a profiler does to a record. It takes in the values of the record one after the other up to the
first that is at fault (`observeFields_eq`). A record is therefore accepted whole or not at all, and
an accepted one shows its leaves in order (`observeFields_eq_ok_iff`).
-/

namespace TriShare

variable {schema : Schema}

/-! ### Stops -/

mutual

/-- What a profiler looks at in a column, in order: the single texts, and as a whole each record
that stands where there can be none. -/
def Tree.stopsAt (schema : Schema) (outer : List String) (name : String) :
    PartyValue → List (Leaf PartyValue)
  | .leaf text => [⟨outer, name, .leaf text⟩]
  | .node fields =>
    if schema.classAt (pathOf outer) name = .shared then
      Fields.stops schema (outer ++ [name]) fields
    else [⟨outer, name, .node fields⟩]

/-- What a profiler looks at in a record, in order. -/
def Fields.stops (schema : Schema) (outer : List String) :
    List (String × PartyValue) → List (Leaf PartyValue)
  | [] => []
  | (name, v) :: rest => Tree.stopsAt schema outer name v ++ Fields.stops schema outer rest

end

namespace Leaf

/-- How many bytes it takes once it is padded, or what is at fault with it. -/
def measure (schema : Schema) (stop : Leaf PartyValue) : Except FieldError Nat :=
  match stop.value with
  | .leaf text => encodedLength (stop.columnClass schema) text
  | .node _ => .error (.mismatch .nestedRecord)

def measure? (schema : Schema) (stop : Leaf PartyValue) : Option Nat :=
  (stop.measure schema).toOption

end Leaf

/-- Takes in what a profiler looks at, up to the first that is at fault. -/
def takeIn (schema : Schema) :
    List (Leaf PartyValue) → NameMap Nat → Except Rejection Unit × NameMap Nat
  | [], lengths => (.ok (), lengths)
  | stop :: rest, lengths =>
    match stop.measure schema with
    | .error e => (.error ⟨stop.path, e⟩, lengths)
    | .ok length => takeIn schema rest (lengths.alter stop.name (raise length))

variable {stops rest : List (Leaf PartyValue)} {lengths : NameMap Nat}

theorem takeIn_append : ∀ {stops : List (Leaf PartyValue)} {lengths : NameMap Nat},
    takeIn schema (stops ++ rest) lengths =
      match takeIn schema stops lengths with
      | (.error r, lengths) => (.error r, lengths)
      | (.ok (), lengths) => takeIn schema rest lengths
  | [], _ => rfl
  | stop :: stops, lengths => by
    rw [List.cons_append, takeIn, takeIn]
    cases stop.measure schema with
    | error e => rfl
    | ok length => exact takeIn_append

mutual

theorem observeValue_eq : ∀ (outer : List String) (name : String) (v : PartyValue)
    (lengths : NameMap Nat),
    observeValue schema (joinPath (pathOf outer) name) name (schema.classAt (pathOf outer) name) v
        lengths =
      takeIn schema (Tree.stopsAt schema outer name v) lengths
  | outer, name, .leaf text, lengths => by
    have hmeasure : Leaf.measure schema ⟨outer, name, .leaf text⟩ =
      encodedLength (schema.classAt (pathOf outer) name) text := rfl
    rw [observeValue, Tree.stopsAt, takeIn, hmeasure]
    cases encodedLength (schema.classAt (pathOf outer) name) text <;> rfl
  | outer, name, .node fields, lengths => by
    rw [observeValue, Tree.stopsAt]
    split
    · rw [← pathOf_concat, observeFields_eq]
    · rfl

/-- The columns of a record are taken in one after the other, nested records in place. -/
theorem observeFields_eq : ∀ (outer : List String) (fields : PartyRecord) (lengths : NameMap Nat),
    observeFields schema (pathOf outer) fields lengths =
      takeIn schema (Fields.stops schema outer fields) lengths
  | outer, [], lengths => by rw [observeFields, Fields.stops, takeIn]
  | outer, (name, v) :: rest, lengths => by
    rw [observeFields, observeValue_eq, Fields.stops, takeIn_append]
    cases takeIn schema (Tree.stopsAt schema outer name v) lengths with
    | mk outcome between =>
      cases outcome with
      | error r => rfl
      | ok u => exact observeFields_eq outer rest between

end

theorem takeIn_snd : ∀ {stops : List (Leaf PartyValue)} {lengths : NameMap Nat},
    (takeIn schema stops lengths).2 =
      (stops.takeWhile fun stop => (stop.measure? schema).isSome).foldl
        (note (Leaf.measure? schema)) lengths
  | [], _ => rfl
  | stop :: stops, lengths => by
    rw [takeIn, List.takeWhile_cons, Leaf.measure?]
    cases hmeasure : stop.measure schema with
    | error e => rfl
    | ok length =>
      have hnote : note (Leaf.measure? schema) lengths stop =
          lengths.alter stop.name (raise length) := by
        rw [note, Leaf.measure?, hmeasure]
        rfl
      simp only [Except.toOption, Option.isSome_some, if_true, List.foldl_cons, hnote]
      exact takeIn_snd

/-- The error is that of one of the stops. -/
theorem exists_of_takeIn_error {r : Rejection} :
    ∀ {stops : List (Leaf PartyValue)} {lengths : NameMap Nat},
      (takeIn schema stops lengths).1 = .error r →
        ∃ stop ∈ stops, ∃ e, stop.measure schema = .error e ∧ r = ⟨stop.path, e⟩
  | [], _, h => by cases h
  | stop :: stops, lengths, h => by
    rw [takeIn] at h
    cases hmeasure : stop.measure schema with
    | error e =>
      rw [hmeasure] at h
      exact ⟨stop, List.mem_cons_self, e, hmeasure, (Except.error.inj h).symm⟩
    | ok length =>
      rw [hmeasure] at h
      obtain ⟨stop', hmem, e, he, hr⟩ := exists_of_takeIn_error h
      exact ⟨stop', List.mem_cons_of_mem _ hmem, e, he, hr⟩

theorem takeIn_fst_eq_ok_iff : ∀ {stops : List (Leaf PartyValue)} {lengths : NameMap Nat},
    (takeIn schema stops lengths).1 = .ok () ↔ ∀ stop ∈ stops, (stop.measure? schema).isSome
  | [], _ => by simp [takeIn]
  | stop :: stops, lengths => by
    rw [List.forall_mem_cons, takeIn, Leaf.measure?]
    cases stop.measure schema with
    | error e => simp [Except.toOption]
    | ok length => simpa [Except.toOption] using takeIn_fst_eq_ok_iff

mutual

theorem stopAt_cases : ∀ {outer : List String} {name : String} {v : PartyValue}
    {stop : Leaf PartyValue}, stop ∈ Tree.stopsAt schema outer name v →
      (∃ leaf ∈ Tree.leavesAt outer name v, stop = leaf.map .leaf) ∨
      (∃ inner, stop.value = .node inner) ∧ stop.columnClass schema ≠ .shared
  | outer, name, .leaf text, stop, h => by
    rw [Tree.stopsAt, List.mem_singleton] at h
    rw [Tree.leavesAt]
    exact .inl ⟨⟨outer, name, text⟩, List.mem_singleton_self _, h⟩
  | outer, name, .node fields, stop, h => by
    rw [Tree.stopsAt] at h
    rw [Tree.leavesAt]
    split at h
    · exact stop_cases h
    · next hclass =>
      rw [List.mem_singleton] at h
      subst h
      exact .inr ⟨⟨fields, rfl⟩, hclass⟩

/-- What a profiler looks at is a single value, or a record in a column that is not byte-shared. -/
theorem stop_cases : ∀ {outer : List String} {fields : PartyRecord} {stop : Leaf PartyValue},
    stop ∈ Fields.stops schema outer fields →
      (∃ leaf ∈ Fields.leaves outer fields, stop = leaf.map .leaf) ∨
      (∃ inner, stop.value = .node inner) ∧ stop.columnClass schema ≠ .shared
  | outer, [], stop, h => by simp [Fields.stops] at h
  | outer, (name, v) :: rest, stop, h => by
    rw [Fields.stops] at h
    simp only [Fields.leaves, List.mem_append]
    rcases List.mem_append.mp h with h | h
    · rcases stopAt_cases h with ⟨leaf, hleaf, heq⟩ | hnode
      · exact .inl ⟨leaf, .inl hleaf, heq⟩
      · exact .inr hnode
    · rcases stop_cases h with ⟨leaf, hleaf, heq⟩ | hnode
      · exact .inl ⟨leaf, .inr hleaf, heq⟩
      · exact .inr hnode

end

mutual

theorem stopsAt_of_wellNested : ∀ {outer : List String} {name : String} {v : PartyValue},
    Tree.WellNested schema outer name v →
      Tree.stopsAt schema outer name v = (Tree.leavesAt outer name v).map (Leaf.map .leaf)
  | outer, name, .leaf text, _ => by
    rw [Tree.stopsAt, Tree.leavesAt]
    rfl
  | outer, name, .node fields, h => by
    rw [Tree.WellNested] at h
    rw [Tree.stopsAt, if_pos h.1, Tree.leavesAt, stops_of_wellNested h.2]

/-- Where records are nested in byte-shared columns only, a profiler looks at the single values. -/
theorem stops_of_wellNested : ∀ {outer : List String} {fields : PartyRecord},
    Fields.WellNested schema outer fields →
      Fields.stops schema outer fields = (Fields.leaves outer fields).map (Leaf.map .leaf)
  | outer, [], _ => by rw [Fields.stops, Fields.leaves, List.map_nil]
  | outer, (name, v) :: rest, h => by
    rw [Fields.WellNested] at h
    rw [Fields.stops, Fields.leaves, stopsAt_of_wellNested h.1, stops_of_wellNested h.2,
      List.map_append]

end

/-! ### Accepted records -/

/-- How many bytes the text of a leaf takes once it is padded, if it can be. -/
def Leaf.length? (schema : Schema) (leaf : Leaf String) : Option Nat :=
  (encodedLength (leaf.columnClass schema) leaf.value).toOption

/-- A record of a party that a profiler accepts: records are nested in byte-shared columns, and all
leaves have a length. -/
structure Accepted (schema : Schema) (outer : List String) (fields : PartyRecord) : Prop where
  wellNested : Fields.WellNested schema outer fields
  lengths : ∀ leaf ∈ Fields.leaves outer fields, (leaf.length? schema).isSome

mutual

theorem wellNestedAt_of_stops : ∀ {outer : List String} {name : String} {v : PartyValue},
    (∀ stop ∈ Tree.stopsAt schema outer name v, (stop.measure? schema).isSome) →
      Tree.WellNested schema outer name v
  | outer, name, .leaf text, _ => by
    rw [Tree.WellNested]
    trivial
  | outer, name, .node fields, h => by
    rw [Tree.stopsAt] at h
    rw [Tree.WellNested]
    split at h
    · next hclass => exact ⟨hclass, wellNested_of_stops h⟩
    · -- The record itself is looked at, and it has no length.
      rw [List.forall_mem_singleton] at h
      cases h

theorem wellNested_of_stops : ∀ {outer : List String} {fields : PartyRecord},
    (∀ stop ∈ Fields.stops schema outer fields, (stop.measure? schema).isSome) →
      Fields.WellNested schema outer fields
  | outer, [], _ => by
    rw [Fields.WellNested]
    trivial
  | outer, (name, v) :: rest, h => by
    rw [Fields.stops, List.forall_mem_append] at h
    rw [Fields.WellNested]
    exact ⟨wellNestedAt_of_stops h.1, wellNested_of_stops h.2⟩

end

variable {outer : List String} {fields : PartyRecord}

/-- A record is accepted if nothing that is looked at in it is at fault. -/
theorem accepted_iff_stops : Accepted schema outer fields ↔
    ∀ stop ∈ Fields.stops schema outer fields, (stop.measure? schema).isSome := by
  constructor
  · intro h
    rw [stops_of_wellNested h.wellNested, List.forall_mem_map]
    exact h.lengths
  · intro h
    have hnested := wellNested_of_stops h
    rw [stops_of_wellNested hnested, List.forall_mem_map] at h
    exact ⟨hnested, h⟩

/-- All of a record that is accepted is taken in. -/
theorem takeWhile_of_accepted (h : Accepted schema outer fields) :
    ((Fields.stops schema outer fields).takeWhile fun stop => (stop.measure? schema).isSome) =
      (Fields.leaves outer fields).map (Leaf.map .leaf) := by
  rw [← stops_of_wellNested h.wellNested, List.takeWhile_eq_self_iff]
  exact accepted_iff_stops.mp h

/-- A profiler that accepts a record has then taken in its leaves. -/
theorem observeFields_eq_ok_iff {lengths lengths' : NameMap Nat} :
    observeFields schema (pathOf outer) fields lengths = (.ok (), lengths') ↔
      Accepted schema outer fields ∧
      (Fields.leaves outer fields).foldl (note (Leaf.length? schema)) lengths = lengths' := by
  rw [observeFields_eq, Prod.ext_iff, takeIn_fst_eq_ok_iff, ← accepted_iff_stops, takeIn_snd]
  refine and_congr_right fun h => ?_
  rw [takeWhile_of_accepted h, List.foldl_map]
  rfl

end TriShare
