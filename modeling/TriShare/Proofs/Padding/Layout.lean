import TriShare.Proofs.Padding.Rows
import TriShare.Proofs.Record.Shape
/-!
The layout of a row. A row is the padded leaves of its record one after the other, so where a leaf
starts is decided by the widths and by the columns before it, whatever their values are; a record
that has no row fails at the first leaf that cannot be padded (`padRecord_layout`).
-/

namespace TriShare

/-! ### Traversals -/

section Traversal

variable {α β ε : Type} {f : α → Except ε β}

theorem mapM_cons_eq_ok_iff {x : α} {xs : List α} {ys : List β} : (x :: xs).mapM f = .ok ys ↔
    ∃ y, f x = .ok y ∧ ∃ rest, xs.mapM f = .ok rest ∧ y :: rest = ys := by
  rw [List.mapM_cons]
  cases f x with
  | error e => simp [bind, Except.bind]
  | ok y => cases xs.mapM f <;> simp [bind, Except.bind, pure, Except.pure]

theorem mapM_cons_of_ok {x : α} {xs : List α} {y : β} {e : ε} (h : f x = .ok y) :
    (x :: xs).mapM f = .error e ↔ xs.mapM f = .error e := by
  rw [List.mapM_cons, h]
  cases xs.mapM f <;> simp [bind, Except.bind, pure, Except.pure]

/-- A traversal that succeeds has a result for every element. -/
theorem mapM_eq_ok_iff {xs : List α} {ys : List β} :
    xs.mapM f = .ok ys ↔ List.Forall₂ (fun x y => f x = .ok y) xs ys := by
  induction xs generalizing ys with
  | nil => cases ys <;> simp [pure, Except.pure]
  | cons x xs ih =>
    rw [mapM_cons_eq_ok_iff]
    constructor
    · rintro ⟨y, hy, rest, hrest, rfl⟩
      exact .cons hy (ih.mp hrest)
    · intro h
      cases h with
      | cons hy hrest => exact ⟨_, hy, _, ih.mpr hrest, rfl⟩

/-- A traversal that fails has the error of the first element that does. -/
theorem mapM_eq_error_iff {xs : List α} {e : ε} : xs.mapM f = .error e ↔
    ∃ (i : Nat) (x : α), xs[i]? = some x ∧ f x = .error e ∧
      ∀ j < i, ∀ y, xs[j]? = some y → ∃ z, f y = .ok z := by
  induction xs with
  | nil => simp [pure, Except.pure]
  | cons x xs ih =>
    cases hx : f x with
    | error e' =>
      have hmap : (x :: xs).mapM f = .error e' := by rw [List.mapM_cons, hx]; rfl
      rw [hmap]
      constructor
      · intro h
        cases h
        exact ⟨0, x, rfl, hx, by simp⟩
      · rintro ⟨i, y, hy, he, hbefore⟩
        cases i with
        | zero =>
          obtain rfl : x = y := Option.some.inj hy
          cases hx.symm.trans he
          rfl
        | succ i =>
          obtain ⟨z, hz⟩ := hbefore 0 (Nat.succ_pos i) x rfl
          cases hx.symm.trans hz
    | ok y =>
      rw [mapM_cons_of_ok hx, ih]
      constructor
      · rintro ⟨i, z, hz, he, hbefore⟩
        refine ⟨i + 1, z, hz, he, fun j hj w hw => ?_⟩
        cases j with
        | zero =>
          obtain rfl : x = w := Option.some.inj hw
          exact ⟨y, hx⟩
        | succ j => exact hbefore j (Nat.lt_of_succ_lt_succ hj) w hw
      · rintro ⟨i, z, hz, he, hbefore⟩
        cases i with
        | zero =>
          obtain rfl : x = z := Option.some.inj hz
          cases hx.symm.trans he
        | succ i =>
          exact ⟨i, z, hz, he, fun j hj w hw => hbefore (j + 1) (Nat.succ_lt_succ hj) w hw⟩

theorem exists_mapM_iff {xs : List α} :
    (∃ ys, xs.mapM f = .ok ys) ↔ ∀ x ∈ xs, ∃ y, f x = .ok y := by
  induction xs with
  | nil => simp [pure, Except.pure]
  | cons x xs ih =>
    rw [List.forall_mem_cons, ← ih]
    constructor
    · rintro ⟨ys, h⟩
      obtain ⟨y, hy, rest, hrest, -⟩ := mapM_cons_eq_ok_iff.mp h
      exact ⟨⟨y, hy⟩, rest, hrest⟩
    · rintro ⟨⟨y, hy⟩, rest, hrest⟩
      exact ⟨y :: rest, mapM_cons_eq_ok_iff.mpr ⟨y, hy, rest, hrest, rfl⟩⟩

end Traversal

variable {schema : Schema} {w : Widths} {index : Nat} {record : PartyRecord} {row : List Block}
  {leaf : Leaf String} {leaves : List (Leaf String)}

/-! ### Leaves -/

namespace Leaf

/-- A leaf fills its width with these blocks. -/
def PaddedTo (schema : Schema) (w : Widths) (leaf : Leaf String) (blocks : List Block) : Prop :=
  ∃ width, w.blocks? leaf.name = some width ∧
    padValue (leaf.columnClass schema) leaf.value width = .ok blocks

/-- Why a leaf cannot be padded: its name has no width, or its value does not pad to it. -/
inductive PadFault (schema : Schema) (w : Widths) (index : Nat) (leaf : Leaf String) :
    Halt Error → Prop
  | noWidth (h : w.blocks? leaf.name = none) :
      PadFault schema w index leaf (.error (.noWidth leaf.path))
  | value {width : Nat} {e : FieldError} (hwidth : w.blocks? leaf.name = some width)
      (hvalue : padValue (leaf.columnClass schema) leaf.value width = .error (.error e)) :
      PadFault schema w index leaf (.error (.field index leaf.path e))
  | panic {width : Nat} {cause : Panic} (hwidth : w.blocks? leaf.name = some width)
      (hvalue : padValue (leaf.columnClass schema) leaf.value width = .error (.panic cause)) :
      PadFault schema w index leaf (.panic cause)

theorem pad_of_noWidth (h : w.blocks? leaf.name = none) :
    leaf.pad schema w index = .error (.error (.noWidth leaf.path)) := by
  simp only [pad, padLeaf, h]

theorem pad_of_width {width : Nat} (h : w.blocks? leaf.name = some width) :
    leaf.pad schema w index =
      (padValue (leaf.columnClass schema) leaf.value width).mapError
        (Halt.map (.field index leaf.path)) := by
  simp only [pad, padLeaf, h]

theorem pad_eq_ok_iff_paddedTo :
    leaf.pad schema w index = .ok row ↔ leaf.PaddedTo schema w row := by
  rw [PaddedTo]
  cases hwidth : w.blocks? leaf.name with
  | none => simp [pad_of_noWidth hwidth]
  | some width =>
    rw [pad_of_width hwidth]
    simp only [Option.some.injEq, exists_eq_left']
    cases padValue (leaf.columnClass schema) leaf.value width <;> simp [Except.mapError]

theorem pad_eq_error_iff {e : Halt Error} :
    leaf.pad schema w index = .error e ↔ leaf.PadFault schema w index e := by
  constructor
  · intro h
    cases hwidth : w.blocks? leaf.name with
    | none =>
      rw [pad_of_noWidth hwidth] at h
      cases h
      exact .noWidth hwidth
    | some width =>
      rw [pad_of_width hwidth] at h
      cases hvalue : padValue (leaf.columnClass schema) leaf.value width with
      | ok blocks => simp [hvalue, Except.mapError] at h
      | error halt =>
        rw [hvalue] at h
        cases h
        cases halt with
        | error cause => exact .value hwidth hvalue
        | panic cause => exact .panic hwidth hvalue
  · rintro (hwidth | ⟨hwidth, hvalue⟩ | ⟨hwidth, hvalue⟩)
    · exact pad_of_noWidth hwidth
    all_goals
      rw [pad_of_width hwidth, hvalue]
      rfl

/-- A padded leaf takes as many blocks as its name has. -/
theorem PaddedTo.blocks?_eq {blocks : List Block} (h : leaf.PaddedTo schema w blocks) :
    w.blocks? leaf.name = some blocks.length := by
  obtain ⟨width, hwidth, hvalue⟩ := h
  obtain ⟨bytes, -, -, -, rfl⟩ := padValue_eq_ok_iff.mp hvalue
  rw [hwidth, Block.length_fill]

/-- The blocks of a leaf stand in a row from a place on. -/
def StandsAt (schema : Schema) (w : Widths) (leaf : Leaf String) (row : List Block) (start : Nat) :
    Prop :=
  ∃ blocks, leaf.PaddedTo schema w blocks ∧ (row.drop start).take blocks.length = blocks

end Leaf

/-! ### Rows -/

theorem Widths.span_cons {α : Type} (w : Widths) (leaf : Leaf α) (leaves : List (Leaf α)) :
    w.span (leaf :: leaves) = (w.blocks? leaf.name).getD 0 + w.span leaves := by
  rw [Widths.span, List.map_cons, List.sum_cons, ← Widths.span]

/-- How many blocks leaves take does not depend on their values. -/
theorem Widths.span_blank {α : Type} (w : Widths) (leaves : List (Leaf α)) :
    w.span (leaves.map Leaf.blank) = w.span leaves := by
  rw [Widths.span, Widths.span, List.map_map]
  rfl

/-- Leaves that are padded take the blocks that the widths give them. -/
theorem length_flatten_of_paddedTo {parts : List (List Block)}
    (h : List.Forall₂ (Leaf.PaddedTo schema w) leaves parts) :
    parts.flatten.length = w.span leaves := by
  induction h with
  | nil => rfl
  | cons hleaf _ ih =>
    rw [List.flatten_cons, List.length_append, ih, Widths.span_cons, hleaf.blocks?_eq,
      Option.getD_some]

/-- Each of them starts where the leaves before it end. -/
theorem standsAt_of_paddedTo {parts : List (List Block)}
    (h : List.Forall₂ (Leaf.PaddedTo schema w) leaves parts) {j : Nat}
    (hleaf : leaves[j]? = some leaf) :
    leaf.StandsAt schema w parts.flatten (w.span (leaves.take j)) := by
  induction h generalizing j with
  | nil => cases hleaf
  | @cons first blocks rest parts hfirst _ ih =>
    cases j with
    | zero =>
      obtain rfl : first = leaf := Option.some.inj hleaf
      exact ⟨blocks, hfirst, by simp [Widths.span]⟩
    | succ j =>
      obtain ⟨own, hown, htake⟩ := ih hleaf
      refine ⟨own, hown, ?_⟩
      rw [List.take_succ_cons, Widths.span_cons, hfirst.blocks?_eq, Option.getD_some,
        List.flatten_cons, ← List.drop_drop, List.drop_left, htake]

theorem padRecord_eq (hw : w.fingerprint = schema.fingerprint) :
    padRecord schema w index record =
      ((Fields.leaves [] record).mapM (Leaf.pad schema w index)).map List.flatten := by
  have hcheck : w.check schema = .ok () := if_pos hw
  have hpath : pathOf [] = "" := rfl
  rw [padRecord, hcheck, ← hpath, padFields_eq]

theorem padRecord_eq_ok_iff : padRecord schema w index record = .ok row ↔
    w.fingerprint = schema.fingerprint ∧
      ∃ parts, List.Forall₂ (Leaf.PaddedTo schema w) (Fields.leaves [] record) parts ∧
        parts.flatten = row := by
  by_cases hw : w.fingerprint = schema.fingerprint
  · have hparts : ∀ {parts}, (Fields.leaves [] record).mapM (Leaf.pad schema w index) = .ok parts ↔
        List.Forall₂ (Leaf.PaddedTo schema w) (Fields.leaves [] record) parts := by
      intro parts
      simp only [mapM_eq_ok_iff, Leaf.pad_eq_ok_iff_paddedTo]
    simp only [padRecord_eq hw, and_iff_right hw, ← hparts]
    cases (Fields.leaves [] record).mapM (Leaf.pad schema w index) <;> simp [Except.map]
  · have hcheck : w.check schema = .error (.otherSchema w.fingerprint schema.fingerprint) :=
      if_neg hw
    simp [padRecord, hcheck, hw]

theorem padRecord_eq_error_iff (hw : w.fingerprint = schema.fingerprint) {e : Halt Error} :
    padRecord schema w index record = .error e ↔
      ∃ (j : Nat) (leaf : Leaf String), (Fields.leaves [] record)[j]? = some leaf ∧
        leaf.PadFault schema w index e ∧ ∀ i < j, ∀ before : Leaf String,
          (Fields.leaves [] record)[i]? = some before →
            ∃ blocks, before.PaddedTo schema w blocks := by
  have hfault : (Fields.leaves [] record).mapM (Leaf.pad schema w index) = .error e ↔ _ :=
    mapM_eq_error_iff
  simp only [Leaf.pad_eq_error_iff, Leaf.pad_eq_ok_iff_paddedTo] at hfault
  rw [padRecord_eq hw, ← hfault]
  cases (Fields.leaves [] record).mapM (Leaf.pad schema w index) <;> simp [Except.map]

/-- A record can be padded if each of its leaves can. -/
theorem exists_padRecord_iff : (∃ row, padRecord schema w index record = .ok row) ↔
    w.fingerprint = schema.fingerprint ∧
      ∀ leaf ∈ Fields.leaves [] record, ∃ row, leaf.pad schema w index = .ok row := by
  rw [← exists_mapM_iff]
  simp only [padRecord_eq_ok_iff, mapM_eq_ok_iff, Leaf.pad_eq_ok_iff_paddedTo]
  simp

theorem length_of_padRecord (h : padRecord schema w index record = .ok row) :
    row.length = w.span (Fields.leaves [] record) := by
  obtain ⟨-, parts, hparts, rfl⟩ := padRecord_eq_ok_iff.mp h
  exact length_flatten_of_paddedTo hparts

/-- Records of one shape have leaves in the same columns, at the same places. -/
theorem places_eq_of_shape_eq {record' : PartyRecord}
    (h : Fields.shape record = Fields.shape record') (j : Nat) :
    (Fields.leaves [] record)[j]?.map Leaf.columns =
        (Fields.leaves [] record')[j]?.map Leaf.columns ∧
      w.span ((Fields.leaves [] record).take j) = w.span ((Fields.leaves [] record').take j) := by
  have hblank := Fields.blank_leaves_eq h []
  constructor
  · have hj := congrArg (fun leaves => leaves[j]?.map Leaf.columns) hblank
    simp only [List.getElem?_map, Option.map_map] at hj
    exact hj
  · rw [← w.span_blank ((Fields.leaves [] record).take j),
      ← w.span_blank ((Fields.leaves [] record').take j), List.map_take, List.map_take, hblank]

/-! ### Tables -/

variable {table : PartyTable}

theorem padRecords_eq : ∀ {index : Nat}, padRecords schema w index table =
    (table.zipIdx index).mapM fun x => padFields schema w x.2 "" x.1 := by
  induction table with
  | nil =>
    intro index
    rfl
  | cons record rest ih =>
    intro index
    rw [padRecords, ih, List.zipIdx_cons, List.mapM_cons]
    cases padFields schema w index "" record with
    | error e => rfl
    | ok row =>
      cases (rest.zipIdx (index + 1)).mapM fun x => padFields schema w x.2 "" x.1 with
      | error e => rfl
      | ok rows => rfl

/-- A table is padded record by record. -/
theorem padTable_eq (hw : w.fingerprint = schema.fingerprint) :
    padTable schema w table = table.zipIdx.mapM fun x => padRecord schema w x.2 x.1 := by
  have hcheck : w.check schema = .ok () := if_pos hw
  have hrecord : ∀ x : PartyRecord × Nat,
      padRecord schema w x.2 x.1 = padFields schema w x.2 "" x.1 := by
    intro x
    rw [padRecord, hcheck]
  simp only [hrecord]
  rw [padTable, hcheck, padRecords_eq]

theorem padTable_eq_ok_iff (hw : w.fingerprint = schema.fingerprint) {rows : List (List Block)} :
    padTable schema w table = .ok rows ↔ rows.length = table.length ∧
      ∀ (i : Nat) (record : PartyRecord) (row : List Block), table[i]? = some record →
        rows[i]? = some row → padRecord schema w i record = .ok row := by
  rw [padTable_eq hw, mapM_eq_ok_iff, List.forall₂_iff_get]
  simp only [List.length_zipIdx, List.get_eq_getElem, List.getElem_zipIdx, Nat.zero_add]
  constructor
  · rintro ⟨hlength, h⟩
    refine ⟨hlength.symm, fun i record row hrecord hrow => ?_⟩
    obtain ⟨hi, rfl⟩ := List.getElem?_eq_some_iff.mp hrecord
    obtain ⟨hi', rfl⟩ := List.getElem?_eq_some_iff.mp hrow
    exact h i hi hi'
  · rintro ⟨hlength, h⟩
    exact ⟨hlength.symm, fun i hi hi' =>
      h i _ _ (List.getElem?_eq_getElem hi) (List.getElem?_eq_getElem hi')⟩

theorem padTable_eq_error_iff (hw : w.fingerprint = schema.fingerprint) {e : Halt Error} :
    padTable schema w table = .error e ↔
      ∃ (i : Nat) (record : PartyRecord), table[i]? = some record ∧
        padRecord schema w i record = .error e ∧ ∀ j < i, ∀ before : PartyRecord,
          table[j]? = some before → ∃ row, padRecord schema w j before = .ok row := by
  rw [padTable_eq hw, mapM_eq_error_iff]
  simp only [List.getElem?_zipIdx, Option.map_eq_some_iff, Nat.zero_add]
  constructor
  · rintro ⟨i, -, ⟨record, hrecord, rfl⟩, he, hbefore⟩
    exact ⟨i, record, hrecord, he, fun j hj before h => hbefore j hj _ ⟨before, h, rfl⟩⟩
  · rintro ⟨i, record, hrecord, he, hbefore⟩
    refine ⟨i, _, ⟨record, hrecord, rfl⟩, he, ?_⟩
    rintro j hj - ⟨before, h, rfl⟩
    exact hbefore j hj before h

/-! ### The layout -/

/-- The layout that widths give to the rows of records. -/
structure Layout (schema : Schema) (w : Widths) : Prop where
  /-- A row is made of the padded leaves of its record, in their order. -/
  row : ∀ index record row, padRecord schema w index record = .ok row ↔
    ∃ parts, List.Forall₂ (Leaf.PaddedTo schema w) (Fields.leaves [] record) parts ∧
      parts.flatten = row
  /-- A record without a row has the fault of its first leaf that has one. -/
  fault : ∀ index record e, padRecord schema w index record = .error e ↔
    ∃ (j : Nat) (leaf : Leaf String), (Fields.leaves [] record)[j]? = some leaf ∧
      leaf.PadFault schema w index e ∧ ∀ i < j, ∀ before : Leaf String,
        (Fields.leaves [] record)[i]? = some before → ∃ blocks, before.PaddedTo schema w blocks
  /-- The order of leaves is that of the names of their columns. -/
  order : ∀ record : PartyRecord, Fields.Ordered record →
    (Fields.leaves [] record).Pairwise fun a b => a.columns < b.columns
  /-- A row takes the widths of its leaves, whatever their values are. -/
  length : ∀ index record row, padRecord schema w index record = .ok row →
    row.length = w.span (Fields.leaves [] record)
  /-- Each leaf starts behind the widths of the leaves before it. -/
  places : ∀ index record row, padRecord schema w index record = .ok row →
    ∀ (j : Nat) (leaf : Leaf String), (Fields.leaves [] record)[j]? = some leaf →
      leaf.StandsAt schema w row (w.span ((Fields.leaves [] record).take j))
  /-- The places are the same for all records of one shape. -/
  shape : ∀ record record' : PartyRecord, Fields.shape record = Fields.shape record' → ∀ j : Nat,
    (Fields.leaves [] record)[j]?.map Leaf.columns =
        (Fields.leaves [] record')[j]?.map Leaf.columns ∧
      w.span ((Fields.leaves [] record).take j) = w.span ((Fields.leaves [] record').take j)
  /-- The rows of a table are those of its records. -/
  rows : ∀ table rows, padTable schema w table = .ok rows ↔ rows.length = table.length ∧
    ∀ (i : Nat) (record : PartyRecord) (row : List Block), table[i]? = some record →
      rows[i]? = some row → padRecord schema w i record = .ok row
  /-- A table without rows has the fault of its first record that has no row. -/
  firstFault : ∀ table e, padTable schema w table = .error e ↔
    ∃ (i : Nat) (record : PartyRecord), table[i]? = some record ∧
      padRecord schema w i record = .error e ∧ ∀ j < i, ∀ before : PartyRecord,
        table[j]? = some before → ∃ row, padRecord schema w j before = .ok row

/-- Under widths of the schema a row is a fixed layout: it holds the padded leaves of its record
one after the other, each at a place that the shape of the record decides. -/
theorem padRecord_layout (hw : w.fingerprint = schema.fingerprint) : Layout schema w where
  row index record row := by rw [padRecord_eq_ok_iff, and_iff_right hw]
  fault index record e := padRecord_eq_error_iff hw
  order record h := h.leaves
  length index record row h := length_of_padRecord h
  places index record row h j leaf hleaf := by
    obtain ⟨-, parts, hparts, rfl⟩ := padRecord_eq_ok_iff.mp h
    exact standsAt_of_paddedTo hparts hleaf
  shape record record' h j := places_eq_of_shape_eq h j
  rows table rows := padTable_eq_ok_iff hw
  firstFault table e := padTable_eq_error_iff hw

/-- A nested value that is too wide for a column without blocks is found behind leaves that fit. -/
theorem padRecord_layout_receipts :
    let w : Widths :=
      ⟨receiptSchema.fingerprint, NameMap.ofList [("code", 1), ("date", 1), ("note", 0)]⟩
    let record : PartyRecord := [("date", .leaf "2024-02-29"),
      ("item", .node [("code", .leaf "6e74 0108"), ("note", .leaf "00 00")])]
    w.fingerprint = receiptSchema.fingerprint ∧ Layout receiptSchema w ∧
      padRecord receiptSchema w 7 record =
        .error (.error (.field 7 "item.note" (.tooWide 2 0))) := by
  intro w record
  have hlayout : Layout receiptSchema w := padRecord_layout rfl
  let leaf : Leaf String := ⟨["item"], "note", "00 00"⟩
  have hfault : leaf.PadFault receiptSchema w 7 (.error (.field 7 "item.note" (.tooWide 2 0))) :=
    .value (by decide : w.blocks? "note" = some 0) (by decide +kernel)
  have hbefore : ∀ i < 2, ∀ before : Leaf String, (Fields.leaves [] record)[i]? = some before →
      ∃ blocks, before.PaddedTo receiptSchema w blocks := by
    intro i hi before hleaf
    have hmem : before ∈ (Fields.leaves [] record).take 2 :=
      List.mem_of_getElem? (i := i) (by rw [List.getElem?_take_of_lt hi, hleaf])
    have htake : (Fields.leaves [] record).take 2 =
      [⟨[], "date", "2024-02-29"⟩, ⟨["item"], "code", "6e74 0108"⟩] := rfl
    rw [htake] at hmem
    rcases List.mem_pair.mp hmem with rfl | rfl
    · exact ⟨[Block.ofPrefix (Bytes.ofText "2024-02-29")], 1, by decide, by decide +kernel⟩
    · exact ⟨[Block.ofPrefix [0x6e, 0x74, 0x01, 0x08]], 1, by decide, by decide +kernel⟩
  exact ⟨rfl, hlayout, (hlayout.fault 7 record _).mpr ⟨2, leaf, rfl, hfault, hbefore⟩⟩

end TriShare
