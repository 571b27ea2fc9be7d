import TriShare.Proofs.Padding.Encoding
import TriShare.Proofs.Profile.Run
import TriShare.Proofs.Table.Parallel
/-!
The widths of a table that was shared are known from its source. A profiler accepts what any party
gets of it unless a text in the clear has a character without a byte, and finds the same widths for
every party, every source of randomness and every number of workers.
-/

namespace TriShare

variable {schema : Schema}

/-! ### Leaves of the source -/

namespace Leaf

variable (schema) (leaf : Leaf Scalar)

/-- What it is shared as. -/
def content : Except FieldError Content := (leaf.columnClass schema).content leaf.value

/-- How many bytes each party holds of it. -/
def width? : Option Nat := (leaf.content schema).toOption.map Content.width

/-- Whether it is no text in the clear with a character above U+00FF. -/
def PlainSingleByte : Prop :=
  ∀ content, leaf.content schema = .ok content → content.PlainSingleByte

variable {schema leaf} {content : Content}

theorem width?_eq (h : leaf.content schema = .ok content) :
    leaf.width? schema = some content.width := by
  rw [width?, h]
  rfl

end Leaf

/-- What is said of the value of a result has to be decided for one value at most. -/
instance decidableForallOk {ε α : Type} (result : Except ε α) (P : α → Prop) [DecidablePred P] :
    Decidable (∀ a, result = .ok a → P a) :=
  match result with
  | .ok a => decidable_of_iff (P a) (by simp)
  | .error e => .isTrue (by simp)

instance (leaf : Leaf Scalar) : Decidable (leaf.PlainSingleByte schema) :=
  inferInstanceAs (Decidable (∀ content, leaf.content schema = .ok content →
    content.PlainSingleByte))

theorem LeafOpens.content {leaf : SharedLeaf}
    (h : LeafOpens schema leaf.outer leaf.name leaf.value.1 leaf.value.2) : ∃ content,
      leaf.plain.content schema = .ok content ∧
        content.OpensTo schema.precision leaf.value.2 := h

/-- A party's text has the length that is known from the leaf of the source. -/
theorem length?_seenBy_eq_some_iff {leaf : SharedLeaf}
    (h : LeafOpens schema leaf.outer leaf.name leaf.value.1 leaf.value.2) (p : Party) {n : Nat} :
    (leaf.seenBy p).length? schema = some n ↔
      leaf.plain.PlainSingleByte schema ∧ leaf.plain.width? schema = some n := by
  obtain ⟨content, hcontent, hopens⟩ := h.content
  have hsingle : leaf.plain.PlainSingleByte schema ↔ content.PlainSingleByte := by
    rw [Leaf.PlainSingleByte, hcontent]
    simp
  rw [hsingle, Leaf.width?_eq hcontent, Option.some.injEq,
    ← hopens.encodedLength_eq_ok_iff hcontent p]
  exact toOption_eq_some_iff

/-! ### Rows -/

variable {record : Record} {row : Triple PartyRecord} {table : List Record}
  {rows : List (Triple PartyRecord)}

/-- A party's record is accepted if all that it shows in the clear has bytes. -/
theorem SharedRow.accepted_iff (h : SharedRow schema record row) (p : Party) :
    Accepted schema [] (row.get p) ↔
      ∀ leaf ∈ Fields.leaves [] record, leaf.PlainSingleByte schema := by
  obtain ⟨leaves, hsheet⟩ := h.opens.sheet
  have hseen : Fields.leaves [] (row.get p) = leaves.map (SharedLeaf.seenBy p) := hsheet.seenBy p
  have hleaf : ∀ leaf ∈ leaves, ((leaf.seenBy p).length? schema).isSome ↔
      leaf.plain.PlainSingleByte schema := by
    intro leaf hmem
    have hlaw := hsheet.law leaf hmem
    obtain ⟨content, hcontent, -⟩ := hlaw.content
    simp only [Option.isSome_iff_exists, length?_seenBy_eq_some_iff hlaw]
    simp [Leaf.width?_eq hcontent]
  have hlengths : (∀ leaf ∈ Fields.leaves [] (row.get p), (leaf.length? schema).isSome) ↔
      ∀ leaf ∈ Fields.leaves [] record, leaf.PlainSingleByte schema := by
    rw [hseen, hsheet.plain, List.forall_mem_map, List.forall_mem_map]
    exact forall₂_congr hleaf
  rw [← hlengths]
  exact ⟨fun haccepted => haccepted.lengths,
    fun hall => ⟨h.opens.wellNested h.wellNested p, hall⟩⟩

/-- The lengths under a name are those of the leaves of the source. -/
theorem SharedRow.lengthsUnder_eq (h : SharedRow schema record row)
    (hsingle : ∀ leaf ∈ Fields.leaves [] record, leaf.PlainSingleByte schema) (p : Party)
    (name : String) : lengthsUnder (Leaf.length? schema) name (Fields.leaves [] (row.get p)) =
      lengthsUnder (Leaf.width? schema) name (Fields.leaves [] record) := by
  obtain ⟨leaves, hsheet⟩ := h.opens.sheet
  have hseen : Fields.leaves [] (row.get p) = leaves.map (SharedLeaf.seenBy p) := hsheet.seenBy p
  rw [hsheet.plain, List.forall_mem_map] at hsingle
  rw [hseen, hsheet.plain, lengthsUnder, lengthsUnder, List.filterMap_map, List.filterMap_map]
  refine List.filterMap_congr fun leaf hmem => ?_
  have hlength : (leaf.seenBy p).length? schema = leaf.plain.width? schema := by
    refine Option.ext fun n => ?_
    rw [length?_seenBy_eq_some_iff (hsheet.law leaf hmem)]
    exact and_iff_right (hsingle leaf hmem)
  exact congrArg (fun length? => if leaf.name = name then length? else none) hlength

theorem forall_accepted_iff (h : List.Forall₂ (SharedRow schema) table rows) (p : Party) :
    (∀ r ∈ rows.map (Triple.get · p), Accepted schema [] r) ↔
      ∀ leaf ∈ tableLeaves table, leaf.PlainSingleByte schema := by
  induction h with
  | nil => simp [tableLeaves]
  | cons hrow _ ih =>
    rw [List.map_cons, List.forall_mem_cons, hrow.accepted_iff, ih, tableLeaves, tableLeaves,
      List.flatMap_cons, List.forall_mem_append]

theorem lengthsUnder_rows_eq (h : List.Forall₂ (SharedRow schema) table rows)
    (hsingle : ∀ leaf ∈ tableLeaves table, leaf.PlainSingleByte schema) (p : Party)
    (name : String) :
    lengthsUnder (Leaf.length? schema) name (tableLeaves (rows.map (Triple.get · p))) =
      lengthsUnder (Leaf.width? schema) name (tableLeaves table) := by
  induction h with
  | nil => rfl
  | cons hrow _ ih =>
    rw [tableLeaves, List.flatMap_cons, List.forall_mem_append] at hsingle
    rw [List.map_cons, tableLeaves, tableLeaves, List.flatMap_cons, List.flatMap_cons,
      lengthsUnder_append, lengthsUnder_append, hrow.lengthsUnder_eq hsingle.1]
    exact congrArg _ (ih hsingle.2)

/-! ### Tables -/

/-- The parties' views of a table, in either way of sharing. -/
def SharedAs (schema : Schema) (table : List Record) (views : Triple PartyTable) : Prop :=
  (∃ source rest, shareTable schema table source = (.ok views, rest)) ∨
    ∃ workers tapes, shareTableParallel schema table workers tapes = .ok views

theorem SharedAs.recordwise {views : Triple PartyTable} (h : SharedAs schema table views) :
    Recordwise schema 0 table (.ok views) := by
  rcases h with ⟨source, rest, h⟩ | ⟨workers, tapes, h⟩
  · have hrecordwise := recordwise_shareRecords schema table 0 source
    rw [shareTable] at h
    rwa [h] at hrecordwise
  · exact h ▸ recordwise_shareTableParallel schema table workers tapes

/-- The widths of a table, known from its source. -/
def sourceWidths (schema : Schema) (table : List Record) : Widths :=
  widthsOf schema (Leaf.width? schema) (tableLeaves table)

variable {views : Triple PartyTable}

/-- What a new profiler does with a party's view of a shared table. -/
theorem SharedAs.observeTable_eq_ok_iff (h : SharedAs schema table views) (p : Party)
    {q : Profiler} : (Profiler.new schema).observeTable (views.get p) = (.ok (), q) ↔
      (∀ leaf ∈ tableLeaves table, leaf.PlainSingleByte schema) ∧
        Profiler.after schema (views.get p) = q := by
  obtain ⟨rows, hviews, hshared, -⟩ := h.recordwise.rows
  have hobserve : (Profiler.new schema).observeTable (views.get p) = (.ok (), q) ↔ _ :=
    @Profiler.observeFrom_after_eq_ok_iff schema (views.get p) q 0 []
  rw [hobserve, List.nil_append, hviews, forall_accepted_iff hshared]

theorem SharedAs.finish_eq (h : SharedAs schema table views) (hne : table ≠ [])
    (hsingle : ∀ leaf ∈ tableLeaves table, leaf.PlainSingleByte schema) (p : Party) :
    (Profiler.after schema (views.get p)).finish = .ok (sourceWidths schema table) := by
  obtain ⟨rows, hviews, hshared, -⟩ := h.recordwise.rows
  have hne' : views.get p ≠ [] := by
    intro hnil
    rw [hviews, List.map_eq_nil_iff] at hnil
    rw [hnil, List.forall₂_nil_right_iff] at hshared
    exact hne hshared
  rw [Profiler.finish_after hne', hviews, sourceWidths]
  refine congrArg _ (widthsOf_congr fun name n => ?_)
  rw [lengthsUnder_rows_eq hshared hsingle]

/-- Every leaf of a shared table has a width. -/
theorem SharedAs.isSome_width? (h : SharedAs schema table views) :
    ∀ leaf ∈ tableLeaves table, (leaf.width? schema).isSome := by
  obtain ⟨rows, -, hshared, -⟩ := h.recordwise.rows
  clear h
  induction hshared with
  | nil => simp [tableLeaves]
  | cons hrow _ ih =>
    rw [tableLeaves, List.flatMap_cons, List.forall_mem_append]
    refine ⟨?_, ih⟩
    obtain ⟨leaves, hsheet⟩ := hrow.opens.sheet
    rw [hsheet.plain, List.forall_mem_map]
    intro leaf hmem
    obtain ⟨content, hcontent, -⟩ := (hsheet.law leaf hmem).content
    rw [Leaf.width?_eq hcontent]
    rfl

/-- A table has one set of widths, known from its source: it is what a profiler finds in the view of
any party, however the table was shared, unless a text in the clear cannot be encoded. -/
theorem exists_sharedWidths {table : List Record} (hne : table ≠ []) : ∃ w : Widths,
    w.fingerprint = schema.fingerprint ∧ ∀ views, SharedAs schema table views →
      (∀ name,
        w.blocks? name = (lengthsUnder (Leaf.width? schema) name (tableLeaves table)).max?.map
          (fun bytes => (bytes + 15) / 16) ∧
        (w.blocks? name = none ↔ ∀ leaf ∈ tableLeaves table, leaf.name ≠ name)) ∧
      ∀ p, ((∃ q, (Profiler.new schema).observeTable (views.get p) = (.ok (), q)) ↔
          ∀ leaf ∈ tableLeaves table, leaf.PlainSingleByte schema) ∧
        ∀ q, (Profiler.new schema).observeTable (views.get p) = (.ok (), q) → q.finish = .ok w := by
  refine ⟨sourceWidths schema table, rfl, fun views h => ⟨fun name => ?_, fun p => ⟨?_, ?_⟩⟩⟩
  · exact ⟨blocks?_widthsOf _, blocks?_widthsOf_eq_none_iff h.isSome_width?⟩
  · simp only [h.observeTable_eq_ok_iff p, exists_and_left, exists_eq', and_true]
  · intro q hq
    obtain ⟨hsingle, rfl⟩ := (h.observeTable_eq_ok_iff p).mp hq
    exact h.finish_eq hne hsingle p

theorem sharedAs_receiptViews :
    SharedAs receiptSchema (receipts "ab" (.number (.integer (-3)))) receiptViews :=
  .inl ⟨.ofTape receiptTape, ⟨receiptTape, 20⟩, rfl⟩

theorem exists_sharedWidths_receipts :
    let table := receipts "ab" (.number (.integer (-3)))
    table ≠ [] ∧ SharedAs receiptSchema table receiptViews ∧
    ∃ w : Widths, w.blocks? "price" = some 1 ∧ w.blocks? "item" = none ∧
      ∀ views, SharedAs receiptSchema table views → ∀ p, ∃ q,
        (Profiler.new receiptSchema).observeTable (views.get p) = (.ok (), q) ∧
          q.finish = .ok w := by
  intro table
  have hne : table ≠ [] := List.cons_ne_nil _ _
  obtain ⟨w, -, hw⟩ := @exists_sharedWidths receiptSchema table hne
  have hblocks := (hw receiptViews sharedAs_receiptViews).1
  refine ⟨hne, sharedAs_receiptViews, w, (hblocks "price").1.trans (by decide),
    (hblocks "item").2.mpr (by decide), fun views hviews p => ?_⟩
  obtain ⟨hobserve, hfinish⟩ := (hw views hviews).2 p
  obtain ⟨q, hq⟩ := hobserve.mpr (by decide)
  exact ⟨q, hq, hfinish q hq⟩

end TriShare
