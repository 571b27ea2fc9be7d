import TriShare.Proofs.Json.RoundTrip
import TriShare.Proofs.Profile.Shared
import TriShare.Proofs.Record.Json
/-!
What is handed from one stage to the next. Tables of parties and widths are written as documents and
read again as what they were. A party's table is as deep as the table it was shared from, so that no
document is too deep to be read that was made from one that was read.
-/

namespace TriShare

/-! ### Depth -/

section Depth

variable {α : Type}

/-- How deep a table is nested: the array, its records, and those in their columns. -/
def tableDepth : List (Fields α) → Nat
  | [] => 1
  | record :: rest => max (Tree.depthFields record + 2) (tableDepth rest)

theorem Tree.depthFields_le_iff {fields : List (String × Tree α)} {n : Nat} :
    Tree.depthFields fields ≤ n ↔ ∀ e ∈ fields, Tree.depth e.2 ≤ n := by
  induction fields with
  | nil => simp [Tree.depthFields]
  | cons e rest ih => rw [Tree.depthFields, max_le_iff, ih, List.forall_mem_cons]

/-- Columns that are put in order are not nested deeper. -/
theorem Tree.depthFields_ofList_le (fields : List (String × Tree α)) :
    Tree.depthFields (Entries.ofList fields) ≤ Tree.depthFields fields := by
  have hfields := Tree.depthFields_le_iff.mp (Nat.le_refl (Tree.depthFields fields))
  exact Tree.depthFields_le_iff.mpr fun e he => hfields e (Entries.mem_of_mem_ofList he)

theorem tableDepth_shape (table : List (Fields α)) :
    tableDepth (table.map Fields.shape) = tableDepth table := by
  induction table with
  | nil => rfl
  | cons record rest ih => rw [List.map_cons, tableDepth, tableDepth, ih, Fields.depth_shape]

end Depth

/-! ### Depth of documents -/

mutual

theorem PartyValue.depth_toJson : ∀ t : PartyValue, (PartyValue.toJson t).depth = Tree.depth t
  | .leaf _ => by simp [PartyValue.toJson, Json.depth, Tree.depth]
  | .node fields => by
    rw [PartyValue.toJson, Json.depth, Tree.depth, PartyRecord.depthFields_toFields]

theorem PartyRecord.depthFields_toFields : ∀ fields : List (String × PartyValue),
    Json.depthFields (PartyRecord.toFields fields) = Tree.depthFields fields
  | [] => by rw [PartyRecord.toFields, Json.depthFields, Tree.depthFields]
  | (_, t) :: rest => by
    rw [PartyRecord.toFields, Json.depthFields, Tree.depthFields, PartyValue.depth_toJson,
      PartyRecord.depthFields_toFields]

end

/-- A table is written as a document of its own depth. -/
theorem PartyTable.depth_toJson (table : PartyTable) :
    (PartyTable.toJson table).depth = tableDepth table := by
  rw [PartyTable.toJson, Json.depth]
  induction table with
  | nil => rfl
  | cons record rest ih =>
    rw [List.map_cons, Json.depthItems, tableDepth, ← ih, PartyRecord.toJson, Json.depth,
      PartyRecord.depthFields_toFields, ← Nat.add_max_add_right]

mutual

theorem PartyValue.depth_le_of_ofJson? : ∀ {v : Json} {t : PartyValue},
    PartyValue.ofJson? v = some t → Tree.depth t ≤ v.depth
  | .string s, t, h => by
    rw [PartyValue.ofJson?, Option.some.injEq] at h
    subst h
    simp [Tree.depth]
  | .object fields, t, h => by
    rw [PartyValue.ofJson?] at h
    obtain ⟨columns, hcolumns, rfl⟩ := Option.map_eq_some_iff.mp h
    rw [Tree.depth, Json.depth]
    exact Nat.succ_le_succ
      ((Tree.depthFields_ofList_le columns).trans (PartyRecord.depth_le_of_ofFields? hcolumns))
  | .null, _, h => by simp [PartyValue.ofJson?] at h
  | .bool _, _, h => by simp [PartyValue.ofJson?] at h
  | .number _, _, h => by simp [PartyValue.ofJson?] at h
  | .array _, _, h => by simp [PartyValue.ofJson?] at h

theorem PartyRecord.depth_le_of_ofFields? : ∀ {fields : List (String × Json)}
    {columns : List (String × PartyValue)}, PartyValue.ofFields? fields = some columns →
    Tree.depthFields columns ≤ Json.depthFields fields
  | [], columns, h => by
    rw [PartyValue.ofFields?, Option.some.injEq] at h
    subst h
    simp [Tree.depthFields]
  | (name, v) :: rest, columns, h => by
    obtain ⟨t, others, hv, hrest, rfl⟩ := PartyValue.ofFields?_cons_eq_some_iff.mp h
    rw [Tree.depthFields, Json.depthFields]
    exact max_le_max (PartyValue.depth_le_of_ofJson? hv)
      (PartyRecord.depth_le_of_ofFields? hrest)

end

mutual

theorem Value.depth_ofJson_le : ∀ v : Json, Tree.depth (Value.ofJson v) ≤ v.depth
  | .null => by simp [Value.ofJson, Tree.depth]
  | .bool _ => by simp [Value.ofJson, Tree.depth]
  | .number _ => by simp [Value.ofJson, Tree.depth]
  | .string _ => by simp [Value.ofJson, Tree.depth]
  | .array _ => by simp [Value.ofJson, Tree.depth]
  | .object fields => by
    rw [Value.ofJson, Tree.depth, Json.depth]
    exact Nat.succ_le_succ
      ((Tree.depthFields_ofList_le (Value.ofFields fields)).trans (Value.depth_ofFields_le fields))

theorem Value.depth_ofFields_le : ∀ fields : List (String × Json),
    Tree.depthFields (Value.ofFields fields) ≤ Json.depthFields fields
  | [] => by simp [Value.ofFields, Tree.depthFields]
  | (_, v) :: rest => by
    rw [Value.ofFields, Tree.depthFields, Json.depthFields]
    exact max_le_max (Value.depth_ofJson_le v) (Value.depth_ofFields_le rest)

end

/-- A table whose records are no deeper than their documents is no deeper than its own. -/
theorem tableDepth_le_of_tableOfJson? {α : Type} {record? : Json → Option (Fields α)}
    (hrecord : ∀ v record, record? v = some record → Tree.depthFields record + 1 ≤ v.depth)
    {v : Json} {table : List (Fields α)} (h : tableOfJson? record? v = some table) :
    tableDepth table ≤ v.depth := by
  cases v with
  | array items =>
    rw [tableOfJson?, option_mapM_eq_some_iff] at h
    rw [Json.depth]
    induction h with
    | nil => simp [tableDepth, Json.depthItems]
    | cons hitem _ ih =>
      rw [tableDepth, Json.depthItems, ← Nat.add_max_add_right]
      exact max_le_max (Nat.succ_le_succ (hrecord _ _ hitem)) ih
  | _ => cases h

theorem PartyTable.depth_le_of_ofJson? {v : Json} {table : PartyTable}
    (h : PartyTable.ofJson? v = some table) : tableDepth table ≤ v.depth := by
  refine tableDepth_le_of_tableOfJson? (fun v record hrecord => ?_) h
  cases v with
  | object fields =>
    obtain ⟨columns, hcolumns, rfl⟩ := Option.map_eq_some_iff.mp hrecord
    rw [Json.depth]
    exact Nat.succ_le_succ
      ((Tree.depthFields_ofList_le columns).trans (PartyRecord.depth_le_of_ofFields? hcolumns))
  | _ => cases hrecord

theorem Table.depth_le_of_ofJson? {v : Json} {table : List Record}
    (h : Table.ofJson? v = some table) : tableDepth table ≤ v.depth := by
  refine tableDepth_le_of_tableOfJson? (fun v record hrecord => ?_) h
  cases v with
  | object fields =>
    cases hrecord
    rw [Json.depth]
    exact Nat.succ_le_succ
      ((Tree.depthFields_ofList_le (Value.ofFields fields)).trans (Value.depth_ofFields_le fields))
  | _ => cases hrecord

/-! ### Texts -/

mutual

theorem PartyValue.plain_toJson : ∀ t : PartyValue, (PartyValue.toJson t).Plain
  | .leaf s => by
    rw [PartyValue.toJson]
    exact .string s
  | .node fields => by
    rw [PartyValue.toJson]
    exact .object (PartyRecord.plain_toFields fields)

theorem PartyRecord.plain_toFields : ∀ fields : List (String × PartyValue),
    ∀ e ∈ PartyRecord.toFields fields, e.2.Plain
  | [] => by simp [PartyRecord.toFields]
  | (_, t) :: rest => by
    rw [PartyRecord.toFields]
    exact List.forall_mem_cons.mpr ⟨PartyValue.plain_toJson t, PartyRecord.plain_toFields rest⟩

end

theorem PartyTable.plain_toJson (table : PartyTable) : (PartyTable.toJson table).Plain := by
  refine .array (List.forall_mem_map.mpr fun record _ => ?_)
  exact .object (PartyRecord.plain_toFields record)

/-- A table is read from its text as it was written if and only if its columns are in order and it
is not too deep. -/
theorem PartyTable.read?_render_iff {table : PartyTable} :
    PartyTable.read? (PartyTable.toJson table).render = some table ↔
      (∀ record ∈ table, Fields.Ordered record) ∧ tableDepth table ≤ Json.maxDepth := by
  constructor
  · intro h
    obtain ⟨v, hv, htable⟩ := Option.bind_eq_some_iff.mp h
    exact ⟨PartyTable.ordered_of_ofJson? htable,
      (PartyTable.depth_le_of_ofJson? htable).trans (Json.depth_of_read? hv)⟩
  · rintro ⟨hordered, hdepth⟩
    rw [← PartyTable.depth_toJson] at hdepth
    rw [PartyTable.read?, Json.read?_render (PartyTable.plain_toJson table) hdepth,
      Option.bind_some, PartyTable.ofJson?_toJson_iff.mpr hordered]

/-- What is read as a table is in order and not too deep. -/
theorem Table.of_read? {text : String} {table : List Record} (h : Table.read? text = some table) :
    (∀ record ∈ table, Fields.Ordered record) ∧ tableDepth table ≤ Json.maxDepth := by
  obtain ⟨v, hv, htable⟩ := Option.bind_eq_some_iff.mp h
  exact ⟨Table.ordered_of_ofJson? htable,
    (Table.depth_le_of_ofJson? htable).trans (Json.depth_of_read? hv)⟩

namespace Widths

theorem plain_toJson {w : Widths} (h : ∀ e ∈ w.columns.entries, e.2 < UInt64.size) :
    w.toJson.Plain := by
  have hcolumns : ∀ e ∈ w.columns.entries, (Json.nat e.2).Plain := by
    intro e he
    have hlt := h e he
    have hmin : Int64.minValue.toInt = -2 ^ 63 := rfl
    refine .integer ?_
    simp only [Number.isExact, hmin, Bool.and_eq_true, decide_eq_true_eq]
    omega
  refine .object ?_
  simp only [List.forall_mem_cons, List.not_mem_nil, false_implies, implies_true, and_true]
  exact ⟨.string _, .object (List.forall_mem_map.mpr hcolumns)⟩

theorem depth_toJson_le (w : Widths) : w.toJson.depth ≤ 2 := by
  have hcolumns : ∀ e ∈ w.columns.entries, (Json.nat e.2).depth ≤ 0 := by
    intro e _
    simp [Json.nat, Json.depth]
  refine Nat.succ_le_succ (Json.depthFields_le_iff.mpr ?_)
  simp only [List.forall_mem_cons, List.not_mem_nil, false_implies, implies_true, and_true]
  refine ⟨by simp [Json.depth], Nat.succ_le_succ (Json.depthFields_le_iff.mpr ?_)⟩
  exact List.forall_mem_map.mpr hcolumns

theorem lt_of_columnOfField? {field : String × Json} {entry : String × Nat}
    (h : columnOfField? field = some entry) : entry.2 < UInt64.size := by
  obtain ⟨blocks, hblocks, rfl⟩ := Option.map_eq_some_iff.mp h
  unfold Json.natBelow? at hblocks
  split at hblocks
  · obtain ⟨hrange, heq⟩ := Option.ite_none_right_eq_some.mp hblocks
    cases heq
    simp only
    omega
  · cases hblocks

/-- Only integers of 64 bits are read as widths. -/
theorem lt_of_ofJson? {v : Json} {w : Widths} (h : ofJson? v = some w) :
    ∀ e ∈ w.columns.entries, e.2 < UInt64.size := by
  have hcolumns : ∀ {v : Json} {columns : NameMap Nat}, columnsOfJson? v = some columns →
      ∀ e ∈ columns.entries, e.2 < UInt64.size := by
    intro v columns h e he
    cases v with
    | object fields =>
      obtain ⟨entries, hentries, rfl⟩ := Option.map_eq_some_iff.mp h
      exact forall_of_option_mapM (fun _ _ => lt_of_columnOfField?) hentries e
        (Entries.mem_of_mem_ofList he)
    | _ => cases h
  have hvalues : ∀ {fingerprint columns : Json}, ofValues? fingerprint columns = some w →
      ∀ e ∈ w.columns.entries, e.2 < UInt64.size := by
    intro fingerprint columns h
    unfold ofValues? at h
    split at h
    · next hread =>
      cases h
      exact hcolumns hread
    · cases h
  unfold ofJson? at h
  split at h
  · split at h
    · exact hvalues h
    · cases h
  · exact hvalues h
  · cases h

/-- Widths are read from their text as they were written if and only if they are counted in 64
bits. -/
theorem read?_render_iff {w : Widths} :
    read? w.toJson.render = some w ↔ ∀ e ∈ w.columns.entries, e.2 < UInt64.size := by
  constructor
  · intro h
    obtain ⟨v, -, hw⟩ := Option.bind_eq_some_iff.mp h
    exact lt_of_ofJson? hw
  · intro h
    have hdepth : w.toJson.depth ≤ Json.maxDepth := w.depth_toJson_le.trans (by decide)
    have hnames : ∀ name ∈ w.toJson.names, fieldNames.contains name = true := by
      intro name hname
      exact List.contains_iff_mem.mpr hname
    rw [read?, Json.readKnown?_render (plain_toJson h) hdepth hnames, Option.bind_some,
      ofJson?_toJson_iff.mpr h]

end Widths

/-! ### Tables that were shared -/

variable {schema : Schema} {table : List Record} {views : Triple PartyTable}

/-- A party's view of a table has the names and the nesting of the table. -/
theorem SharedAs.shape_eq (h : SharedAs schema table views) (p : Party) :
    (views.get p).map Fields.shape = table.map Fields.shape := by
  obtain ⟨rows, hviews, hshared, -⟩ := h.recordwise.rows
  rw [hviews]
  clear h hviews
  induction hshared with
  | nil => rfl
  | cons hrow _ ih => rw [List.map_cons, List.map_cons, List.map_cons, ih, hrow.opens.shape_eq p]

theorem SharedAs.depth_eq (h : SharedAs schema table views) (p : Party) :
    tableDepth (views.get p) = tableDepth table := by
  rw [← tableDepth_shape, h.shape_eq p, tableDepth_shape]

theorem SharedAs.ordered_iff (h : SharedAs schema table views) (p : Party) :
    (∀ record ∈ views.get p, Fields.Ordered record) ↔ ∀ record ∈ table, Fields.Ordered record := by
  have hshapes : (∀ shape ∈ (views.get p).map Fields.shape, Fields.Ordered shape) ↔
      ∀ shape ∈ table.map Fields.shape, Fields.Ordered shape := by
    rw [h.shape_eq p]
  simpa only [List.forall_mem_map, Fields.ordered_shape] using hshapes

/-- The text of a party's view is read if that of the table was. -/
theorem SharedAs.read?_render (h : SharedAs schema table views) {text : String}
    (htext : Table.read? text = some table) (p : Party) :
    PartyTable.read? (PartyTable.toJson (views.get p)).render = some (views.get p) := by
  obtain ⟨hordered, hdepth⟩ := Table.of_read? htext
  refine PartyTable.read?_render_iff.mpr ⟨(h.ordered_iff p).mpr hordered, ?_⟩
  rwa [h.depth_eq p]

/-- What is handed over stays what it is. Of the tables of parties those whose columns are in order
are read as they were written, and no others are read from any document: from arrays of objects that
hold nothing but strings and objects, a string being read as a text and an object as a record. From
their texts they are read if they are not too deep, and widths if they are counted in 64 bits. A
shared table has the names and the nesting of its source, so its text is read if the source was. -/
theorem handedOver_intact :
    (∀ table : PartyTable,
      (PartyTable.ofJson? (PartyTable.toJson table) = some table ↔
        ∀ record ∈ table, Fields.Ordered record) ∧
      (PartyTable.read? (PartyTable.toJson table).render = some table ↔
        (∀ record ∈ table, Fields.Ordered record) ∧ tableDepth table ≤ Json.maxDepth)) ∧
    (∀ v : Json,
      ((∃ table, PartyTable.ofJson? v = some table) ↔ v.IsViewTable) ∧
      (∀ table, PartyTable.ofJson? v = some table → ∀ record ∈ table, Fields.Ordered record) ∧
      (∀ s, PartyValue.ofJson? v = some (.leaf s) ↔ v = .string s) ∧
      ∀ columns, PartyValue.ofJson? v = some (.node columns) ↔
        ∃ fields, v = .object fields ∧ PartyRecord.ofJson? v = some columns) ∧
    (∀ w : Widths,
      (Widths.ofJson? w.toJson = some w ↔ ∀ e ∈ w.columns.entries, e.2 < UInt64.size) ∧
      (Widths.read? w.toJson.render = some w ↔ ∀ e ∈ w.columns.entries, e.2 < UInt64.size)) ∧
    ∀ (schema : Schema) (table : List Record) (views : Triple PartyTable),
      SharedAs schema table views → ∀ p,
        (views.get p).map Fields.shape = table.map Fields.shape ∧
        (PartyTable.toJson (views.get p)).depth = tableDepth table ∧
        (∀ v, Table.ofJson? v = some table → tableDepth table ≤ v.depth ∧
          PartyTable.ofJson? (PartyTable.toJson (views.get p)) = some (views.get p)) ∧
        ∀ text, Table.read? text = some table →
          PartyTable.read? (PartyTable.toJson (views.get p)).render = some (views.get p) := by
  refine ⟨fun table => ⟨PartyTable.ofJson?_toJson_iff, PartyTable.read?_render_iff⟩,
    fun v => ⟨PartyTable.exists_ofJson?_iff, fun table => PartyTable.ordered_of_ofJson?,
      fun s => PartyValue.ofJson?_eq_leaf_iff, fun columns => PartyValue.ofJson?_eq_node_iff⟩,
    fun w => ⟨Widths.ofJson?_toJson_iff, Widths.read?_render_iff⟩, ?_⟩
  intro schema table views h p
  refine ⟨h.shape_eq p, ?_, ?_, fun text htext => h.read?_render htext p⟩
  · rw [PartyTable.depth_toJson, h.depth_eq p]
  · intro v hv
    have hordered := (h.ordered_iff p).mpr (Table.ordered_of_ofJson? hv)
    exact ⟨Table.depth_le_of_ofJson? hv, PartyTable.ofJson?_toJson_iff.mpr hordered⟩

/-- A document with receipts, in one of which the columns are not in order. -/
def receiptDocument : Json :=
  .array [.object [("date", .string "2024-01-01"),
    ("item", .object [("note", .string ""), ("code", .string "ab")]),
    ("price", .number (.integer (-3)))], .object []]

theorem plain_receiptDocument : receiptDocument.Plain := by
  have hinner : ∀ e ∈ [("note", Json.string ""), ("code", Json.string "ab")], e.2.Plain := by
    simp [Json.Plain.string]
  have hprice : (Json.number (.integer (-3))).Plain := .integer (by decide)
  refine .array ?_
  simp only [List.forall_mem_cons, List.not_mem_nil, false_implies, implies_true, and_true]
  refine ⟨.object ?_, .object (by simp)⟩
  simp [Json.Plain.string, Json.Plain.object hinner, hprice]

theorem read?_receiptDocument :
    Table.read? receiptDocument.render = some (receipts "ab" (.number (.integer (-3)))) := by
  have hdepth : receiptDocument.depth ≤ Json.maxDepth := by decide
  rw [Table.read?, Json.read?_render plain_receiptDocument hdepth]
  rfl

theorem handedOver_intact_receipts :
    let table := receipts "ab" (.number (.integer (-3)))
    SharedAs receiptSchema table receiptViews ∧
      Table.ofJson? receiptDocument = some table ∧
      Table.read? receiptDocument.render = some table ∧
      ∀ p, PartyTable.read? (PartyTable.toJson (receiptViews.get p)).render =
        some (receiptViews.get p) := by
  intro table
  have hviews := handedOver_intact.2.2.2 receiptSchema table receiptViews sharedAs_receiptViews
  exact ⟨sharedAs_receiptViews, rfl, read?_receiptDocument, fun p =>
    (hviews p).2.2.2 _ read?_receiptDocument⟩

end TriShare
