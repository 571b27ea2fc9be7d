import Mathlib.Data.List.Forall2
import TriShare.Profile.Widths
import TriShare.Proofs.Container.NameMap
import TriShare.Proofs.Record.Shape
import TriShare.Record.Json
/-!
Per-party records as documents. A document is taken for a party's value exactly if it is made of
strings and objects only, strings being texts and objects records; what is written is read as the
same record if its columns are in order, and they are in every record that is read.
-/

namespace TriShare

/-! ### Order -/

section Order

variable {α : Type}

theorem Fields.ordered_iff {fields : List (String × Tree α)} :
    Fields.Ordered fields ↔ Entries.Ordered fields ∧ ∀ e ∈ fields, Tree.Ordered e.2 := by
  induction fields with
  | nil => simp [Fields.Ordered, Entries.Ordered]
  | cons e rest ih =>
    obtain ⟨name, v⟩ := e
    rw [Fields.Ordered, ih, Entries.Ordered, Entries.Ordered, List.pairwise_cons,
      List.forall_mem_cons]
    tauto

/-- Columns put in order are in order if the records nested in them are. -/
theorem Fields.ordered_ofList {fields : List (String × Tree α)}
    (h : ∀ e ∈ fields, Tree.Ordered e.2) : Fields.Ordered (Entries.ofList fields) :=
  Fields.ordered_iff.mpr
    ⟨Entries.ordered_ofList fields, fun e he => h e (Entries.mem_of_mem_ofList he)⟩

end Order

/-! ### Traversals -/

section Traversal

variable {α β : Type} {f : α → Option β}

theorem option_mapM_eq_some_iff {xs : List α} {ys : List β} :
    xs.mapM f = some ys ↔ List.Forall₂ (fun x y => f x = some y) xs ys := by
  induction xs generalizing ys with
  | nil => cases ys <;> simp
  | cons x xs ih =>
    rw [List.mapM_cons]
    cases hx : f x with
    | none => cases ys <;> simp [hx]
    | some y =>
      cases hrest : xs.mapM f with
      | none => cases ys <;> simp [← ih, hx, hrest]
      | some rest => cases ys <;> simp [← ih, hx, hrest]

/-- What holds of everything that a function gives holds of all that it gives along a list. -/
theorem forall_of_option_mapM {p : β → Prop} (hf : ∀ x y, f x = some y → p y) {xs : List α}
    {ys : List β} (h : xs.mapM f = some ys) : ∀ y ∈ ys, p y := by
  rw [option_mapM_eq_some_iff] at h
  induction h with
  | nil => simp
  | cons hy _ ih => exact List.forall_mem_cons.mpr ⟨hf _ _ hy, ih⟩

theorem exists_option_mapM_iff {xs : List α} :
    (∃ ys, xs.mapM f = some ys) ↔ ∀ x ∈ xs, ∃ y, f x = some y := by
  simp only [option_mapM_eq_some_iff]
  induction xs with
  | nil => simp
  | cons x xs ih =>
    rw [List.forall_mem_cons, ← ih]
    constructor
    · rintro ⟨ys, h⟩
      cases h with
      | cons hy hrest => exact ⟨⟨_, hy⟩, _, hrest⟩
    · rintro ⟨⟨y, hy⟩, ys, hrest⟩
      exact ⟨y :: ys, .cons hy hrest⟩

end Traversal

/-! ### Documents of values -/

namespace Json

/-- The documents of values: strings, and objects of such documents. -/
inductive IsView : Json → Prop
  | string (s : String) : IsView (.string s)
  | object {fields : List (String × Json)} (h : ∀ e ∈ fields, IsView e.2) : IsView (.object fields)

/-- The documents of records: objects of documents of values. -/
def IsViewRecord (v : Json) : Prop := ∃ fields, v = .object fields ∧ ∀ e ∈ fields, e.2.IsView

/-- The documents of tables: arrays of documents of records. -/
def IsViewTable (v : Json) : Prop := ∃ items, v = .array items ∧ ∀ item ∈ items, item.IsViewRecord

end Json

/-- The columns of an object are read one by one. -/
theorem PartyValue.ofFields?_cons_eq_some_iff {name : String} {v : Json}
    {rest : List (String × Json)} {columns : List (String × PartyValue)} :
    PartyValue.ofFields? ((name, v) :: rest) = some columns ↔
      ∃ t others, PartyValue.ofJson? v = some t ∧ PartyValue.ofFields? rest = some others ∧
        columns = (name, t) :: others := by
  rw [PartyValue.ofFields?]
  cases PartyValue.ofJson? v <;> cases PartyValue.ofFields? rest <;> simp [eq_comm]

mutual

theorem PartyValue.exists_ofJson?_iff : ∀ {v : Json},
    (∃ t, PartyValue.ofJson? v = some t) ↔ v.IsView
  | .string s => by
    simp only [PartyValue.ofJson?, Option.some.injEq, exists_eq', true_iff]
    exact .string s
  | .object fields => by
    have hfields := @PartyRecord.exists_ofFields?_iff fields
    simp only [PartyValue.ofJson?, Option.map_eq_some_iff]
    constructor
    · rintro ⟨t, columns, hcolumns, -⟩
      exact .object (hfields.mp ⟨columns, hcolumns⟩)
    · rintro (_ | h)
      obtain ⟨columns, hcolumns⟩ := hfields.mpr h
      exact ⟨_, columns, hcolumns, rfl⟩
  | .null => ⟨fun ⟨_, h⟩ => by simp [PartyValue.ofJson?] at h, fun h => nomatch h⟩
  | .bool _ => ⟨fun ⟨_, h⟩ => by simp [PartyValue.ofJson?] at h, fun h => nomatch h⟩
  | .number _ => ⟨fun ⟨_, h⟩ => by simp [PartyValue.ofJson?] at h, fun h => nomatch h⟩
  | .array _ => ⟨fun ⟨_, h⟩ => by simp [PartyValue.ofJson?] at h, fun h => nomatch h⟩

theorem PartyRecord.exists_ofFields?_iff : ∀ {fields : List (String × Json)},
    (∃ columns, PartyValue.ofFields? fields = some columns) ↔ ∀ e ∈ fields, e.2.IsView
  | [] => by simp [PartyValue.ofFields?]
  | (name, v) :: rest => by
    rw [List.forall_mem_cons, ← PartyValue.exists_ofJson?_iff, ← PartyRecord.exists_ofFields?_iff]
    simp only [PartyValue.ofFields?_cons_eq_some_iff]
    constructor
    · rintro ⟨_, t, others, ht, hothers, -⟩
      exact ⟨⟨t, ht⟩, others, hothers⟩
    · rintro ⟨⟨t, ht⟩, others, hothers⟩
      exact ⟨_, t, others, ht, hothers, rfl⟩

end

/-- Strings are read as texts and as nothing else. -/
theorem PartyValue.ofJson?_eq_leaf_iff {v : Json} {s : String} :
    PartyValue.ofJson? v = some (.leaf s) ↔ v = .string s := by
  cases v <;> simp [PartyValue.ofJson?]

/-- Objects are read as records and as nothing else. -/
theorem PartyValue.ofJson?_eq_node_iff {v : Json} {columns : PartyRecord} :
    PartyValue.ofJson? v = some (.node columns) ↔
      ∃ fields, v = .object fields ∧ PartyRecord.ofJson? v = some columns := by
  cases v <;> simp [PartyValue.ofJson?, PartyRecord.ofJson?]

/-! ### Reading keeps order -/

mutual

theorem PartyValue.ordered_of_ofJson? : ∀ {v : Json} {t : PartyValue},
    PartyValue.ofJson? v = some t → Tree.Ordered t
  | .string s, t, h => by
    rw [PartyValue.ofJson?, Option.some.injEq] at h
    subst h
    rw [Tree.Ordered]
    trivial
  | .object fields, t, h => by
    rw [PartyValue.ofJson?] at h
    obtain ⟨columns, hcolumns, rfl⟩ := Option.map_eq_some_iff.mp h
    rw [Tree.Ordered]
    exact Fields.ordered_ofList (PartyRecord.ordered_of_ofFields? hcolumns)
  | .null, _, h => by simp [PartyValue.ofJson?] at h
  | .bool _, _, h => by simp [PartyValue.ofJson?] at h
  | .number _, _, h => by simp [PartyValue.ofJson?] at h
  | .array _, _, h => by simp [PartyValue.ofJson?] at h

theorem PartyRecord.ordered_of_ofFields? : ∀ {fields : List (String × Json)}
    {columns : List (String × PartyValue)}, PartyValue.ofFields? fields = some columns →
    ∀ e ∈ columns, Tree.Ordered e.2
  | [], columns, h => by
    rw [PartyValue.ofFields?, Option.some.injEq] at h
    simp [← h]
  | (name, v) :: rest, columns, h => by
    obtain ⟨t, others, hv, hrest, rfl⟩ := PartyValue.ofFields?_cons_eq_some_iff.mp h
    exact List.forall_mem_cons.mpr
      ⟨PartyValue.ordered_of_ofJson? hv, PartyRecord.ordered_of_ofFields? hrest⟩

end

theorem PartyRecord.ordered_of_ofJson? {v : Json} {record : PartyRecord}
    (h : PartyRecord.ofJson? v = some record) : Fields.Ordered record := by
  cases v with
  | object fields =>
    obtain ⟨columns, hcolumns, rfl⟩ := Option.map_eq_some_iff.mp h
    exact Fields.ordered_ofList (PartyRecord.ordered_of_ofFields? hcolumns)
  | _ => cases h

mutual

theorem Value.ordered_ofJson : ∀ v : Json, Tree.Ordered (Value.ofJson v)
  | .null => by rw [Value.ofJson, Tree.Ordered]; trivial
  | .bool _ => by rw [Value.ofJson, Tree.Ordered]; trivial
  | .number _ => by rw [Value.ofJson, Tree.Ordered]; trivial
  | .string _ => by rw [Value.ofJson, Tree.Ordered]; trivial
  | .array _ => by rw [Value.ofJson, Tree.Ordered]; trivial
  | .object fields => by
    rw [Value.ofJson, Tree.Ordered]
    exact Fields.ordered_ofList (Value.ordered_ofFields fields)

theorem Value.ordered_ofFields : ∀ fields : List (String × Json),
    ∀ e ∈ Value.ofFields fields, Tree.Ordered e.2
  | [] => by simp [Value.ofFields]
  | (name, v) :: rest => by
    rw [Value.ofFields]
    exact List.forall_mem_cons.mpr ⟨Value.ordered_ofJson v, Value.ordered_ofFields rest⟩

end

/-- The columns of every record that is read are in order, and those of the records nested in it. -/
theorem Record.ordered_of_ofJson? {v : Json} {record : Record}
    (h : Record.ofJson? v = some record) : Fields.Ordered record := by
  cases v with
  | object fields =>
    cases h
    exact Fields.ordered_ofList (Value.ordered_ofFields fields)
  | _ => cases h

/-! ### Reading what is written -/

mutual

theorem PartyValue.ofJson?_toJson : ∀ {t : PartyValue}, Tree.Ordered t →
    PartyValue.ofJson? (PartyValue.toJson t) = some t
  | .leaf s, _ => by rw [PartyValue.toJson, PartyValue.ofJson?]
  | .node fields, h => by
    rw [Tree.Ordered] at h
    rw [PartyValue.toJson, PartyValue.ofJson?, PartyRecord.ofFields?_toFields h, Option.map_some,
      Entries.ofList_of_ordered h.entries]

theorem PartyRecord.ofFields?_toFields : ∀ {fields : List (String × PartyValue)},
    Fields.Ordered fields → PartyValue.ofFields? (PartyRecord.toFields fields) = some fields
  | [], _ => by rw [PartyRecord.toFields, PartyValue.ofFields?]
  | (name, t) :: rest, h => by
    rw [Fields.Ordered] at h
    obtain ⟨-, ht, hrest⟩ := h
    simp only [PartyRecord.toFields, PartyValue.ofFields?, PartyValue.ofJson?_toJson ht,
      PartyRecord.ofFields?_toFields hrest]

end

/-- A record is read as it was written if and only if its columns are in order. -/
theorem PartyRecord.ofJson?_toJson_iff {record : PartyRecord} :
    PartyRecord.ofJson? (PartyRecord.toJson record) = some record ↔ Fields.Ordered record := by
  constructor
  · exact PartyRecord.ordered_of_ofJson?
  · intro h
    rw [PartyRecord.toJson, PartyRecord.ofJson?, PartyRecord.ofFields?_toFields h, Option.map_some,
      Entries.ofList_of_ordered h.entries]

/-- A table is read as it was written if and only if the columns of its records are in order. -/
theorem PartyTable.ofJson?_toJson_iff {table : PartyTable} :
    PartyTable.ofJson? (PartyTable.toJson table) = some table ↔
      ∀ record ∈ table, Fields.Ordered record := by
  rw [PartyTable.ofJson?, PartyTable.toJson, tableOfJson?, option_mapM_eq_some_iff,
    List.forall₂_map_left_iff, List.forall₂_same]
  simp only [PartyRecord.ofJson?_toJson_iff]

/-- What holds of every record that is read holds of the records of a table. -/
theorem forall_of_tableOfJson? {α : Type} {record? : Json → Option α} {p : α → Prop}
    (hrecord : ∀ v record, record? v = some record → p record) {v : Json} {table : List α}
    (h : tableOfJson? record? v = some table) : ∀ record ∈ table, p record := by
  cases v with
  | array items => exact forall_of_option_mapM hrecord h
  | _ => cases h

theorem PartyTable.ordered_of_ofJson? {v : Json} {table : PartyTable}
    (h : PartyTable.ofJson? v = some table) : ∀ record ∈ table, Fields.Ordered record :=
  forall_of_tableOfJson? (fun _ _ => PartyRecord.ordered_of_ofJson?) h

theorem Table.ordered_of_ofJson? {v : Json} {table : List Record}
    (h : Table.ofJson? v = some table) : ∀ record ∈ table, Fields.Ordered record :=
  forall_of_tableOfJson? (fun _ _ => Record.ordered_of_ofJson?) h

theorem PartyRecord.exists_ofJson?_iff {v : Json} :
    (∃ record, PartyRecord.ofJson? v = some record) ↔ v.IsViewRecord := by
  cases v with
  | object fields =>
    have hfields : (∃ record, (PartyValue.ofFields? fields).map Entries.ofList = some record) ↔
        ∀ e ∈ fields, e.2.IsView := by
      rw [← PartyRecord.exists_ofFields?_iff]
      cases PartyValue.ofFields? fields <;> simp
    rw [PartyRecord.ofJson?, hfields, Json.IsViewRecord]
    simp
  | _ => simp [PartyRecord.ofJson?, Json.IsViewRecord]

/-- A document is read as a table exactly if it is an array of objects of such documents. -/
theorem PartyTable.exists_ofJson?_iff {v : Json} :
    (∃ table, PartyTable.ofJson? v = some table) ↔ v.IsViewTable := by
  cases v with
  | array items =>
    have hitems : (∃ table, items.mapM PartyRecord.ofJson? = some table) ↔
        ∀ item ∈ items, item.IsViewRecord := by
      simp only [exists_option_mapM_iff, PartyRecord.exists_ofJson?_iff]
    rw [PartyTable.ofJson?, tableOfJson?, hitems, Json.IsViewTable]
    simp
  | _ => simp [PartyTable.ofJson?, tableOfJson?, Json.IsViewTable]

/-! ### Widths -/

namespace Widths

/-- What is written for a width is read if it is below the bound. -/
theorem columnOfField?_nat (name : String) (blocks : Nat) : columnOfField? (name, .nat blocks) =
    if blocks < UInt64.size then some (name, blocks) else none := by
  simp only [columnOfField?, Json.nat, Json.natBelow?, Int.natCast_nonneg, true_and,
    Int.ofNat_lt, Int.toNat_natCast]
  split <;> rfl

theorem mapM_columnOfField? {entries : List (String × Nat)}
    (h : ∀ e ∈ entries, e.2 < UInt64.size) :
    (entries.map fun (name, blocks) => (name, Json.nat blocks)).mapM columnOfField? =
      some entries := by
  rw [option_mapM_eq_some_iff, List.forall₂_map_left_iff, List.forall₂_same]
  intro e he
  rw [columnOfField?_nat, if_pos (h e he)]

theorem ofJson?_toJson_eq (w : Widths) : ofJson? w.toJson =
    ((w.columns.entries.map fun (name, blocks) => (name, Json.nat blocks)).mapM
      columnOfField?).map fun entries => ⟨w.fingerprint, NameMap.ofList entries⟩ := by
  have hne : fingerprintField ≠ columnsField := by decide
  simp only [toJson, ofJson?, Json.valuesOf, List.filterMap_cons, List.filterMap_nil, if_pos, hne,
    hne.symm, if_false, ofValues?, Json.string?, columnsOfJson?]
  cases (w.columns.entries.map fun (name, blocks) => (name, Json.nat blocks)).mapM
    columnOfField? <;> rfl

/-- Widths are read as they were written if and only if they are counted in 64 bits. -/
theorem ofJson?_toJson_iff {w : Widths} :
    ofJson? w.toJson = some w ↔ ∀ e ∈ w.columns.entries, e.2 < UInt64.size := by
  rw [ofJson?_toJson_eq]
  constructor
  · intro h e he
    obtain ⟨entries, hentries, -⟩ := Option.map_eq_some_iff.mp h
    have hitem := exists_option_mapM_iff.mp ⟨entries, hentries⟩ _ (List.mem_map_of_mem he)
    obtain ⟨y, hy⟩ := hitem
    rw [columnOfField?_nat] at hy
    by_contra hlarge
    rw [if_neg hlarge] at hy
    cases hy
  · intro h
    have hcolumns : NameMap.ofList w.columns.entries = w.columns := by
      rw [NameMap.ofList]
      congr
      exact Entries.ofList_of_ordered w.columns.ordered
    rw [mapM_columnOfField? h, Option.map_some, hcolumns]

end Widths

end TriShare
