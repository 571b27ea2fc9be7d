import TriShare.Proofs.Table.Spots
/-!
Opening undoes sharing. Each party's table has the records, the columns and the nesting of the
source, and at every leaf any two parties can put the value together from their texts.
-/

namespace TriShare

variable {schema : Schema}

/-- The texts of a leaf open to what its column takes it for. -/
def LeafOpens (schema : Schema) : LeafLaw := fun outer name x texts =>
  ∃ content, (schema.classAt (pathOf outer) name).content x = .ok content ∧
    content.OpensTo schema.precision texts

theorem LeafShared.opens {tape : Nat → UInt8} {outer : List String} {name : String} {x : Scalar}
    {texts : Triple String} (h : LeafShared schema tape outer name x texts) :
    LeafOpens schema outer name x texts := by
  obtain ⟨content, drawn, hcontent, hshare⟩ := h
  refine ⟨content, hcontent, ?_⟩
  cases hfault : content.fault? schema.precision with
  | some e => simp [Content.share_of_fault hfault] at hshare
  | none =>
    obtain ⟨texts', hshare', hopens⟩ := Content.share_of_sound hfault ⟨tape, drawn⟩
    rw [hshare', Except.ok.injEq] at hshare
    rwa [← hshare]

theorem shareRecord_views {index : Nat} {record : Record} {source source' : Source}
    {views : Triple PartyRecord}
    (h : shareRecord schema index record source = (.ok views, source')) :
    FieldViews (LeafShared schema source.tape) [] record views ∧ source'.tape = source.tape := by
  obtain ⟨views', hshare, hviews⟩ :=
    shareRecord_of_sound (sound_of_shareRecord h) index source
  rw [hshare, Prod.mk.injEq, Except.ok.injEq] at h
  obtain ⟨rfl, rfl⟩ := h
  exact ⟨hviews, rfl⟩

/-- The tables of the parties, row by row. -/
theorem shareRecords_views : ∀ {index : Nat} {records : List Record} {source source' : Source}
    {views : Triple PartyTable}, shareRecords schema index records source = (.ok views, source') →
    ∃ rows : List (Triple PartyRecord), (∀ p, views.get p = rows.map (Triple.get · p)) ∧
      List.Forall₂ (FieldViews (LeafShared schema source.tape) []) records rows
  | _, [], _, _, views, h => by
    rw [shareRecords, Prod.mk.injEq, Except.ok.injEq] at h
    rw [← h.1]
    exact ⟨[], fun p => Triple.get_all [] p, .nil⟩
  | index, record :: records, source, source', views, h => by
    obtain ⟨view, views', next, hrecord, hrecords, rfl⟩ := shareRecords_cons.mp h
    obtain ⟨hview, htape⟩ := shareRecord_views hrecord
    obtain ⟨rows, hrows, hviews⟩ := shareRecords_views hrecords
    rw [htape] at hviews
    refine ⟨view :: rows, fun p => ?_, .cons hview hviews⟩
    rw [Triple.get_zipWith, List.map_cons, ← hrows p]

/-- Sharing a table gives each party a record for every record of the table, with its columns and
its nesting, and every leaf opens to its value. -/
theorem shareTable_opens {table : List Record} {source source' : Source} {views : Triple PartyTable}
    (h : shareTable schema table source = (.ok views, source')) :
    (∀ p, (views.get p).length = table.length) ∧
    ∀ (i : Nat) (record : Record), table[i]? = some record → ∃ row : Triple PartyRecord,
      (∀ p, (views.get p)[i]? = some (row.get p)) ∧
        FieldViews (LeafOpens schema) [] record row := by
  obtain ⟨rows, hrows, hviews⟩ := shareRecords_views h
  have hlength : table.length = rows.length := hviews.length_eq
  refine ⟨fun p => by rw [hrows, List.length_map, hlength], fun i record hrecord => ?_⟩
  obtain ⟨hi, hget⟩ := List.getElem?_eq_some_iff.mp hrecord
  have hi' : i < rows.length := hlength ▸ hi
  refine ⟨rows[i], fun p => ?_, ?_⟩
  · rw [hrows, List.getElem?_map, List.getElem?_eq_getElem hi', Option.map_some]
  · have hview := List.forall₂_iff_get.mp hviews |>.2 i hi hi'
    rw [List.get_eq_getElem, List.get_eq_getElem, hget] at hview
    exact hview.imp fun _ _ _ _ _ => LeafShared.opens

/-- A price is a number and a date is not hidden. -/
def receiptSchema : Schema := ⟨⟨10, 64, ⟨["price"], by decide⟩, ⟨["date"], by decide⟩⟩, rfl⟩

/-- A receipt with a nested record, and one without anything on it. -/
def receipts (code : String) (price : Scalar) : List Record :=
  [[("date", .leaf (.text "2024-01-01")),
    ("item", .node [("code", .leaf (.text code)), ("note", .leaf (.text ""))]),
    ("price", .leaf price)], []]

/-- What a party sees of receipts, from its shares. -/
def receiptView (code price : String) : PartyTable :=
  [[("date", .leaf "2024-01-01"),
    ("item", .node [("code", .leaf code), ("note", .leaf "00 00")]),
    ("price", .leaf price)], []]

/-- The tape with every seventh number. -/
def receiptTape (i : Nat) : UInt8 := UInt8.ofNat (7 * i + 1)

theorem shareTable_opens_receipts :
    let table := receipts "ab" (.number (.integer (-3)))
    let views : Triple PartyTable :=
      ⟨receiptView "6e74 0108" "7980878e959c97ab 4e474039322b241d",
        receiptView "0e1e 0f16" "d4c6b8aa9c8e8072 867f78716a635c55",
        receiptView "606a 6f7c" "b1b8bfc6cdd4cfe3 2b3947556371738e"⟩
    shareTable receiptSchema table (.ofTape receiptTape) = (.ok views, ⟨receiptTape, 20⟩) ∧
    (∀ p, (views.get p).length = table.length) ∧
    ∀ (i : Nat) (record : Record), table[i]? = some record → ∃ row : Triple PartyRecord,
      (∀ p, (views.get p)[i]? = some (row.get p)) ∧
        FieldViews (LeafOpens receiptSchema) [] record row :=
  ⟨rfl, @shareTable_opens receiptSchema _ (.ofTape receiptTape) ⟨receiptTape, 20⟩ _ rfl⟩

end TriShare
