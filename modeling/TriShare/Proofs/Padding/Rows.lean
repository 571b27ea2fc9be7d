import TriShare.Proofs.Padding.Value
import TriShare.Proofs.Profile.Shared
/-!
The rows of the three parties open to the plaintext where they were cut from. A row is the padded
leaves of its record one after the other (`padFields_eq`), each in the range that the widths give it
(`PaddedRow`), and what the parties hold in the range of a leaf opens to its value.
-/

namespace TriShare

variable {schema : Schema} {w : Widths}

/-! ### Leaves -/

/-- Pads a leaf of a record with the given index. -/
def Leaf.pad (schema : Schema) (w : Widths) (index : Nat) (leaf : Leaf String) :
    Except (Halt Error) (List Block) :=
  padLeaf w index leaf.path leaf.name (leaf.columnClass schema) leaf.value

/-- A leaf is padded if its column has a width and its text has bytes that fit. -/
theorem Leaf.pad_eq_ok_iff {leaf : Leaf String} {index : Nat} {row : List Block} :
    leaf.pad schema w index = .ok row ↔ ∃ blocks bytes, w.blocks? leaf.name = some blocks ∧
      encodedBytes (leaf.columnClass schema) leaf.value = .ok bytes ∧
      blocks * 16 < 2 ^ 63 ∧ bytes.length ≤ blocks * 16 ∧ Block.fill blocks bytes = row := by
  rw [pad, padLeaf]
  cases w.blocks? leaf.name with
  | none => simp
  | some blocks =>
    simp only [Option.some.injEq, exists_and_left, exists_eq_left', ← padValue_eq_ok_iff]
    cases padValue (leaf.columnClass schema) leaf.value blocks <;> simp [Except.mapError]

theorem Leaf.pad_eq_ok {leaf : Leaf String} {blocks : Nat} {bytes : List UInt8}
    (hblocks : w.blocks? leaf.name = some blocks)
    (hbytes : encodedBytes (leaf.columnClass schema) leaf.value = .ok bytes)
    (hrange : blocks * 16 < 2 ^ 63) (hfits : bytes.length ≤ blocks * 16) (index : Nat) :
    leaf.pad schema w index = .ok (Block.fill blocks bytes) :=
  pad_eq_ok_iff.mpr ⟨blocks, bytes, hblocks, hbytes, hrange, hfits, rfl⟩

mutual

theorem padTree_eq (index : Nat) : ∀ (outer : List String) (name : String) (v : PartyValue),
    padTree schema w index (joinPath (pathOf outer) name) name (schema.classAt (pathOf outer) name)
        v =
      ((Tree.leavesAt outer name v).mapM (Leaf.pad schema w index)).map List.flatten
  | outer, name, .leaf text => by
    rw [padTree, Tree.leavesAt, List.mapM_cons, List.mapM_nil]
    have hpad : Leaf.pad schema w index ⟨outer, name, text⟩ =
      padLeaf w index (joinPath (pathOf outer) name) name (schema.classAt (pathOf outer) name)
        text := rfl
    rw [← hpad]
    cases Leaf.pad schema w index ⟨outer, name, text⟩ with
    | error e => rfl
    | ok row => simp [bind, Except.bind, pure, Except.pure, Except.map]
  | outer, name, .node fields => by
    rw [padTree, Tree.leavesAt, ← pathOf_concat]
    exact padFields_eq index (outer ++ [name]) fields

/-- A row consists of the padded leaves of its record, in order. -/
theorem padFields_eq (index : Nat) : ∀ (outer : List String) (fields : PartyRecord),
    padFields schema w index (pathOf outer) fields =
      ((Fields.leaves outer fields).mapM (Leaf.pad schema w index)).map List.flatten
  | outer, [] => by
    rw [padFields, Fields.leaves]
    rfl
  | outer, (name, v) :: rest => by
    rw [padFields, padTree_eq index outer name v, padFields_eq index outer rest, Fields.leaves,
      List.mapM_append]
    cases (Tree.leavesAt outer name v).mapM (Leaf.pad schema w index) with
    | error e => rfl
    | ok rows =>
      cases (Fields.leaves outer rest).mapM (Leaf.pad schema w index) with
      | error e => rfl
      | ok rows' => simp [bind, Except.bind, pure, Except.pure, Except.map]

end

/-! ### Ranges -/

/-- How many blocks leaves take. -/
def Widths.span {α : Type} (w : Widths) (leaves : List (Leaf α)) : Nat :=
  (leaves.map fun leaf => (w.blocks? leaf.name).getD 0).sum

/-- The bytes in a range of the blocks of a row. -/
def rangeBytes (row : List Block) (start blocks : Nat) : List UInt8 :=
  ((row.drop start).take blocks).flatMap Block.bytes

/-- The rows of the three parties for the leaves of a record: the leaves take their ranges one after
the other, for all parties alike, and what stands in them opens to the leaf and is zero after
that. -/
structure PaddedRow (schema : Schema) (w : Widths) (leaves : List (Leaf Scalar))
    (row : Triple (List Block)) : Prop where
  length : ∀ p, (row.get p).length = w.span leaves
  ranges : ∀ (j : Nat) (leaf : Leaf Scalar), leaves[j]? = some leaf → ∃ blocks content held,
    w.blocks? leaf.name = some blocks ∧ leaf.content schema = .ok content ∧
      content.HeldAs schema.precision held ∧
      ∀ p, rangeBytes (row.get p) (w.span (leaves.take j)) blocks =
        held.get p ++ List.replicate (blocks * 16 - content.width) 0

variable {leaf : Leaf Scalar} {leaves : List (Leaf Scalar)} {blocks : Nat} {content : Content}
  {held : Triple (List UInt8)} {row : Triple (List Block)}

theorem PaddedRow.nil : PaddedRow schema w [] (Triple.all []) where
  length p := by rw [Triple.get_all]; rfl
  ranges j leaf h := by simp at h

theorem PaddedRow.cons (hblocks : w.blocks? leaf.name = some blocks)
    (hcontent : leaf.content schema = .ok content) (hheld : content.HeldAs schema.precision held)
    (hfits : content.width ≤ blocks * 16) (hrow : PaddedRow schema w leaves row) :
    PaddedRow schema w (leaf :: leaves)
      (Triple.zipWith (fun bytes rest => Block.fill blocks bytes ++ rest) held row) where
  length p := by
    rw [Triple.get_zipWith, List.length_append, Block.length_fill, hrow.length, Widths.span,
      Widths.span, List.map_cons, List.sum_cons, hblocks, Option.getD_some]
  ranges j leaf' hj := by
    have hlength : ∀ p, (Block.fill blocks (held.get p)).length = blocks :=
      fun p => Block.length_fill _ _
    cases j with
    | zero =>
      simp only [List.getElem?_cons_zero, Option.some.injEq] at hj
      subst hj
      refine ⟨blocks, content, held, hblocks, hcontent, hheld, fun p => ?_⟩
      have hbytes : (held.get p).length ≤ blocks * 16 := (hheld.length_eq p).trans_le hfits
      have hstart : w.span ((leaf :: leaves).take 0) = 0 := rfl
      rw [Triple.get_zipWith, rangeBytes, hstart, List.drop_zero,
        List.take_left' (hlength p), Block.flatMap_bytes_fill hbytes, hheld.length_eq]
    | succ j =>
      rw [List.getElem?_cons_succ] at hj
      obtain ⟨blocks', content', held', hblocks', hcontent', hheld', hrange⟩ :=
        hrow.ranges j leaf' hj
      refine ⟨blocks', content', held', hblocks', hcontent', hheld', fun p => ?_⟩
      have hstart : w.span ((leaf :: leaves).take (j + 1)) = blocks + w.span (leaves.take j) := by
        rw [List.take_succ_cons, Widths.span, List.map_cons, List.sum_cons, hblocks,
          Option.getD_some, Widths.span]
      rw [← hrange p, Triple.get_zipWith, rangeBytes, rangeBytes, hstart, ← List.drop_drop,
        List.drop_left' (hlength p)]

/-! ### Rows -/

/-- Whether its column is wide enough for what it is shared as, and no wider than can be
allocated. -/
def Leaf.HasRoom (schema : Schema) (w : Widths) (leaf : Leaf Scalar) : Prop :=
  ∀ n, leaf.width? schema = some n → ∃ blocks,
    w.blocks? leaf.name = some blocks ∧ blocks * 16 < 2 ^ 63 ∧ n ≤ blocks * 16

/-- A leaf for which the parties' texts can be padded. -/
structure Paddable (schema : Schema) (w : Widths) (leaf : SharedLeaf) : Prop where
  opens : LeafOpens schema leaf.outer leaf.name leaf.value.1 leaf.value.2
  single : leaf.plain.PlainSingleByte schema
  room : leaf.plain.HasRoom schema w

theorem Paddable.exists_held {leaf : SharedLeaf} (h : Paddable schema w leaf) :
    ∃ blocks content held, w.blocks? leaf.name = some blocks ∧
      leaf.plain.content schema = .ok content ∧ content.HeldAs schema.precision held ∧
      content.width ≤ blocks * 16 ∧
      ∀ p index, (leaf.seenBy p).pad schema w index = .ok (Block.fill blocks (held.get p)) := by
  obtain ⟨content, hcontent, hopens⟩ := h.opens.content
  obtain ⟨blocks, hblocks, hrange, hfits⟩ := h.room content.width (Leaf.width?_eq hcontent)
  obtain ⟨held, hbytes, hheld⟩ := hopens.exists_held hcontent (h.single content hcontent)
  refine ⟨blocks, content, held, hblocks, hcontent, hheld, hfits, fun p index => ?_⟩
  exact Leaf.pad_eq_ok hblocks (hbytes p) hrange ((hheld.length_eq p).trans_le hfits) index

/-- The rows are made leaf by leaf. -/
theorem exists_paddedRow {leaves : List SharedLeaf} (h : ∀ leaf ∈ leaves, Paddable schema w leaf) :
    ∃ row, PaddedRow schema w (leaves.map SharedLeaf.plain) row ∧ ∀ p index,
      ((leaves.map (SharedLeaf.seenBy p)).mapM (Leaf.pad schema w index)).map List.flatten =
        .ok (row.get p) := by
  induction leaves with
  | nil => exact ⟨Triple.all [], .nil, fun p index => by rw [Triple.get_all]; rfl⟩
  | cons leaf leaves ih =>
    rw [List.forall_mem_cons] at h
    obtain ⟨blocks, content, held, hblocks, hcontent, hheld, hfits, hpad⟩ := h.1.exists_held
    obtain ⟨row, hrow, hrest⟩ := ih h.2
    refine ⟨_, hrow.cons hblocks hcontent hheld hfits, fun p index => ?_⟩
    have hrows := hrest p index
    rw [List.map_cons, List.mapM_cons, hpad p index, Triple.get_zipWith]
    cases hmap : (leaves.map (SharedLeaf.seenBy p)).mapM (Leaf.pad schema w index) with
    | error e => simp [hmap, Except.map] at hrows
    | ok rows =>
      rw [hmap, Except.map, Except.ok.injEq] at hrows
      rw [← hrows]
      rfl

/-! ### Tables -/

/-- Whether its text, if it is no number, is shorter than `2 ^ 60` bytes. -/
def Content.Short : Content → Prop
  | .numeric _ => True
  | .passthrough text => text.utf8ByteSize < 2 ^ 60
  | .bytes text => text.utf8ByteSize < 2 ^ 60

instance : ∀ content : Content, Decidable content.Short
  | .numeric _ => .isTrue trivial
  | .passthrough text => inferInstanceAs (Decidable (text.utf8ByteSize < 2 ^ 60))
  | .bytes text => inferInstanceAs (Decidable (text.utf8ByteSize < 2 ^ 60))

theorem Content.Short.width_le {content : Content} (h : content.Short) :
    content.width ≤ 2 ^ 61 := by
  have hlength : ∀ text : String, text.utf8ByteSize < 2 ^ 60 → text.length < 2 ^ 60 := by
    intro text hshort
    rw [← String.length_toList]
    exact (Text.length_toList_le text).trans_lt hshort
  cases content with
  | numeric text =>
    rw [width]
    omega
  | passthrough text => exact (hlength text h).le.trans (by omega)
  | bytes text =>
    have htext := hlength text h
    rw [width]
    omega

/-- Whether it is shared as a short text. -/
def Leaf.Short (schema : Schema) (leaf : Leaf Scalar) : Prop :=
  ∀ content, leaf.content schema = .ok content → content.Short

instance (leaf : Leaf Scalar) : Decidable (leaf.Short schema) :=
  inferInstanceAs (Decidable (∀ content, leaf.content schema = .ok content → content.Short))

/-- The rows to which the parties' views of a table are padded. -/
structure PaddedTable (schema : Schema) (w : Widths) (table : List Record)
    (views : Triple PartyTable) (padded : List (Triple (List Block))) : Prop where
  padTable : ∀ p, padTable schema w (views.get p) = .ok (padded.map (Triple.get · p))
  rows : List.Forall₂ (fun record row => PaddedRow schema w (Fields.leaves [] record) row) table
    padded

variable {table : List Record} {record : Record} {views : Triple PartyTable}

/-- The widths of a table have room for each of its leaves. -/
theorem hasRoom_sourceWidths (hshort : ∀ leaf ∈ tableLeaves table, leaf.Short schema)
    (hmem : leaf ∈ tableLeaves table) : leaf.HasRoom schema (sourceWidths schema table) := by
  intro n hn
  have hlength : n ∈ lengthsUnder (Leaf.width? schema) leaf.name (tableLeaves table) :=
    mem_lengthsUnder.mpr ⟨leaf, hmem, rfl, hn⟩
  obtain ⟨m, hmax, hmost, hle⟩ := exists_max?_ge hlength
  obtain ⟨widest, hwidest, -, hm⟩ := mem_lengthsUnder.mp hmost
  obtain ⟨content, hcontent, rfl⟩ := Option.map_eq_some_iff.mp hm
  have hwidth : content.width ≤ 2 ^ 61 :=
    (hshort widest hwidest content (toOption_eq_some_iff.mp hcontent)).width_le
  have hcount : Block.count content.width ≤ 2 ^ 57 :=
    Block.count_le_iff.mpr (hwidth.trans (by omega))
  refine ⟨Block.count content.width, ?_, by omega, hle.trans (Block.count_le_iff.mp le_rfl)⟩
  rw [sourceWidths, blocks?_widthsOf, hmax, Option.map_some]

/-- The rows of a record of which every leaf has room. -/
theorem SharedRow.exists_paddedRow {views : Triple PartyRecord} (h : SharedRow schema record views)
    (hsingle : ∀ leaf ∈ Fields.leaves [] record, leaf.PlainSingleByte schema)
    (hroom : ∀ leaf ∈ Fields.leaves [] record, leaf.HasRoom schema w) :
    ∃ row, PaddedRow schema w (Fields.leaves [] record) row ∧
      ∀ p index, padFields schema w index "" (views.get p) = .ok (row.get p) := by
  obtain ⟨leaves, hsheet⟩ := h.opens.sheet
  have hseen : ∀ p, Fields.leaves [] (views.get p) = leaves.map (SharedLeaf.seenBy p) :=
    hsheet.seenBy
  rw [hsheet.plain, List.forall_mem_map] at hsingle hroom
  have hpaddable : ∀ leaf ∈ leaves, Paddable schema w leaf := fun leaf hmem =>
    ⟨hsheet.law leaf hmem, hsingle leaf hmem, hroom leaf hmem⟩
  obtain ⟨row, hrow, hpad⟩ := TriShare.exists_paddedRow hpaddable
  refine ⟨row, hsheet.plain ▸ hrow, fun p index => ?_⟩
  have hpath : pathOf [] = "" := rfl
  rw [← hpath, padFields_eq, hseen, hpad]

/-- The rows are made record by record. -/
theorem exists_paddedRows {rows : List (Triple PartyRecord)}
    (h : List.Forall₂ (SharedRow schema) table rows)
    (hsingle : ∀ leaf ∈ tableLeaves table, leaf.PlainSingleByte schema)
    (hroom : ∀ leaf ∈ tableLeaves table, leaf.HasRoom schema w) :
    ∃ padded : List (Triple (List Block)),
      List.Forall₂ (fun record row => PaddedRow schema w (Fields.leaves [] record) row) table
        padded ∧
      ∀ p index, padRecords schema w index (rows.map (Triple.get · p)) =
        .ok (padded.map (Triple.get · p)) := by
  induction h with
  | nil => exact ⟨[], .nil, fun p index => rfl⟩
  | cons hrow _ ih =>
    rw [tableLeaves, List.flatMap_cons, List.forall_mem_append] at hsingle hroom
    obtain ⟨row, hpadded, hpad⟩ := hrow.exists_paddedRow hsingle.1 hroom.1
    obtain ⟨padded, hrest, hpads⟩ := ih hsingle.2 hroom.2
    refine ⟨row :: padded, .cons hpadded hrest, fun p index => ?_⟩
    rw [List.map_cons, padRecords, hpad, hpads, List.map_cons]
    rfl

/-- Sharing, profiling and padding go together. Where texts in the clear have bytes and none is
excessively long, widths are found in every party's view of a shared table, and with the widths that
were found in any of them the views of all parties are padded to rows that open to the table. -/
theorem padTable_opens (h : SharedAs schema table views) (hne : table ≠ [])
    (hsingle : ∀ leaf ∈ tableLeaves table, leaf.PlainSingleByte schema)
    (hshort : ∀ leaf ∈ tableLeaves table, leaf.Short schema) :
    (∀ p, ∃ q w, (Profiler.new schema).observeTable (views.get p) = (.ok (), q) ∧
      q.finish = .ok w) ∧
    ∀ p q w, (Profiler.new schema).observeTable (views.get p) = (.ok (), q) → q.finish = .ok w →
      ∃ padded, PaddedTable schema w table views padded := by
  have hobserve : ∀ p q, (Profiler.new schema).observeTable (views.get p) = (.ok (), q) ↔
      Profiler.after schema (views.get p) = q := fun p q => by
    rw [h.observeTable_eq_ok_iff p, and_iff_right hsingle]
  refine ⟨fun p => ⟨_, _, (hobserve p _).mpr rfl, h.finish_eq hne hsingle p⟩, ?_⟩
  intro p q w hq hw
  rw [← (hobserve p q).mp hq, h.finish_eq hne hsingle p, Except.ok.injEq] at hw
  subst hw
  obtain ⟨rows, hviews, hshared, -⟩ := h.recordwise.rows
  obtain ⟨padded, hpadded, hpads⟩ :=
    exists_paddedRows hshared hsingle fun leaf hmem => hasRoom_sourceWidths hshort hmem
  refine ⟨padded, fun p' => ?_, hpadded⟩
  have hcheck : (sourceWidths schema table).check schema = .ok () := if_pos rfl
  simp only [padTable, hcheck]
  rw [hviews, hpads]

theorem padTable_opens_receipts :
    let table := receipts "ab" (.number (.integer (-3)))
    SharedAs receiptSchema table receiptViews ∧ table ≠ [] ∧
      (∀ leaf ∈ tableLeaves table, leaf.PlainSingleByte receiptSchema) ∧
      (∀ leaf ∈ tableLeaves table, leaf.Short receiptSchema) ∧
      ∃ q w padded,
        (Profiler.new receiptSchema).observeTable (receiptViews.get .second) = (.ok (), q) ∧
        q.finish = .ok w ∧ PaddedTable receiptSchema w table receiptViews padded := by
  intro table
  have hne : table ≠ [] := List.cons_ne_nil _ _
  have hsingle : ∀ leaf ∈ tableLeaves table, leaf.PlainSingleByte receiptSchema := by decide
  have hshort : ∀ leaf ∈ tableLeaves table, leaf.Short receiptSchema := by decide
  obtain ⟨hfound, hpadded⟩ := padTable_opens sharedAs_receiptViews hne hsingle hshort
  obtain ⟨q, w, hq, hw⟩ := hfound .second
  obtain ⟨padded, hrows⟩ := hpadded .second q w hq hw
  exact ⟨sharedAs_receiptViews, hne, hsingle, hshort, q, w, padded, hq, hw, hrows⟩

end TriShare
