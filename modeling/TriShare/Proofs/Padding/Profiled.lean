import TriShare.Proofs.Padding.Layout
import TriShare.Proofs.Profile.Rejected
/-!
Padding against profiling. The widths that a profiler finds have room for every record that it
accepted (`padRecord_of_accepted`). The other way round, a record that can be padded has nothing
that a profiler rejects but for the places of its nested records, which padding does not look at
(`padRecord_profiled`).
-/

namespace TriShare

variable {schema : Schema} {w : Widths} {index : Nat} {record : PartyRecord} {row : List Block}
  {leaf : Leaf String}

/-! ### Profiled records are padded -/

namespace Profiler

variable {calls : List (Nat × PartyRecord)} {call : Nat × PartyRecord}

/-- Whether the texts of all records that are shown are shorter than `2 ^ 60` bytes. -/
def ShortTexts (calls : List (Nat × PartyRecord)) : Prop :=
  ∀ call ∈ calls, ∀ leaf ∈ Fields.leaves [] call.2, leaf.value.utf8ByteSize < 2 ^ 60

/-- Whether the texts of shares are cut by one space only. -/
def SingleSpaces (schema : Schema) (record : PartyRecord) : Prop :=
  ∀ leaf ∈ Fields.leaves [] record, leaf.columnClass schema ≠ .passthrough →
    leaf.value.toList.count ' ' = 1

/-- Nothing that is taken in is longer than a text that was shown, be it of a rejected record. -/
theorem le_of_mem_taken (hshort : ShortTexts calls) {name : String} {n : Nat}
    (h : n ∈ lengthsUnder (Leaf.measure? schema) name (taken schema calls)) : n ≤ 2 ^ 60 := by
  obtain ⟨call, hcall, stop, hstop, -, hn⟩ := mem_lengthsUnder_taken.mp h
  rcases stop_cases (List.takeWhile_subset _ hstop) with ⟨leaf, hleaf, rfl⟩ | ⟨⟨inner, hinner⟩, -⟩
  · have hlength : encodedLength (leaf.columnClass schema) leaf.value = .ok n :=
      toOption_eq_some_iff.mp hn
    exact (encodedLength_le hlength).trans (hshort call hcall leaf hleaf).le
  · rw [Leaf.measure?, Leaf.measure, hinner] at hn
    cases hn

/-- The column of a leaf of an accepted record is wide enough for it. -/
theorem exists_pad_of_accepted (hshort : ShortTexts calls)
    (hcall : call ∈ (new schema).accepted calls) (hspaces : SingleSpaces schema call.2)
    (hleaf : leaf ∈ Fields.leaves [] call.2) (index : Nat) :
    ∃ row, leaf.pad schema (widthsOf schema (Leaf.measure? schema) (taken schema calls)) index =
      .ok row := by
  have hshown : call ∈ calls := (mem_accepted_iff.mp hcall).1
  have haccepted : Accepted schema [] call.2 := (mem_accepted_iff.mp hcall).2
  obtain ⟨n, hn⟩ := Option.isSome_iff_exists.mp (haccepted.lengths leaf hleaf)
  have htaken : leaf.map .leaf ∈ takenOf schema call.2 := by
    rw [takenOf_of_accepted haccepted]
    exact List.mem_map_of_mem hleaf
  obtain ⟨m, hmax, hm, hle⟩ := exists_max?_ge
    (mem_lengthsUnder_taken.mpr ⟨call, hshown, leaf.map .leaf, htaken, rfl, hn⟩)
  obtain ⟨bytes, hbytes, hlength⟩ :=
    exists_encodedBytes (toOption_eq_some_iff.mp hn) (hspaces leaf hleaf)
  have hcount : Block.count m ≤ 2 ^ 56 :=
    Block.count_le_iff.mpr ((le_of_mem_taken hshort hm).trans (by omega))
  have hfits : bytes.length ≤ Block.count m * 16 :=
    (hlength.trans_le hle).trans (Block.count_le_iff.mp le_rfl)
  have hblocks : (widthsOf schema (Leaf.measure? schema) (taken schema calls)).blocks? leaf.name =
      some (Block.count m) := by
    rw [blocks?_widthsOf]
    exact congrArg (Option.map Block.count) hmax
  exact ⟨_, Leaf.pad_eq_ok hblocks hbytes (by omega) hfits index⟩

/-- Whatever was profiled can be padded. After any run in which a record was accepted there are
widths, and with them each accepted record is padded to the blocks of its leaves, unless the text of
a share has a second space. -/
theorem padRecord_of_accepted (hshort : ShortTexts calls)
    (hsome : (new schema).accepted calls ≠ []) :
    ∃ w, ((new schema).observeEach calls).finish = .ok w ∧
      ∀ call ∈ (new schema).accepted calls, SingleSpaces schema call.2 →
        (∀ leaf ∈ Fields.leaves [] call.2, (w.blocks? leaf.name).isSome) ∧
        ∀ index, ∃ row, padRecord schema w index call.2 = .ok row ∧
          row.length = w.span (Fields.leaves [] call.2) := by
  refine ⟨_, finish_observeEach hsome, fun call hcall hspaces => ?_⟩
  have hpad := fun index leaf hleaf =>
    @exists_pad_of_accepted schema leaf calls call hshort hcall hspaces hleaf index
  constructor
  · intro leaf hleaf
    obtain ⟨row, hrow⟩ := hpad 0 leaf hleaf
    obtain ⟨blocks, -, hblocks, -⟩ := Leaf.pad_eq_ok_iff.mp hrow
    rw [hblocks]
    rfl
  · intro index
    obtain ⟨row, hrow⟩ := exists_padRecord_iff.mpr ⟨rfl, hpad index⟩
    exact ⟨row, hrow, length_of_padRecord hrow⟩

theorem padRecord_of_accepted_receipts :
    let bad : Nat × PartyRecord := (0, [("date", .leaf "2024-02-29"), ("seal", .leaf "hello")])
    let good : Nat × PartyRecord := (1, [("date", .leaf "2024"), ("note", .leaf "0e1e 0f16")])
    ShortTexts [bad, good] ∧ good ∈ (new receiptSchema).accepted [bad, good] ∧
      ∃ w, ((new receiptSchema).observeEach [bad, good]).finish = .ok w ∧
        ∀ index, ∃ row, padRecord receiptSchema w index good.2 = .ok row ∧
          row.length = w.span (Fields.leaves [] good.2) := by
  intro bad good
  have hshort : ShortTexts [bad, good] := by
    unfold ShortTexts
    decide +kernel
  have hgood : good ∈ (new receiptSchema).accepted [bad, good] := by
    have hok : ((new receiptSchema).observe 1 good.2).1 = .ok () := by decide +kernel
    exact mem_accepted_iff.mpr ⟨by simp, observe_fst_eq_ok_iff.mp hok⟩
  have hspaces : SingleSpaces receiptSchema good.2 := by
    unfold SingleSpaces
    decide +kernel
  obtain ⟨w, hw, hpadded⟩ := padRecord_of_accepted hshort (List.ne_nil_of_mem hgood)
  exact ⟨hshort, hgood, w, hw, (hpadded good hgood hspaces).2⟩

end Profiler

/-! ### Padded records are profiled -/

/-- A profiler that is shown just this record accepts it whenever it can be padded, and finds no
column wider than the widths to which it is padded. -/
def PaddedAsProfiled (schema : Schema) (w : Widths) (record : PartyRecord) : Prop :=
  ∀ index row, padRecord schema w index record = .ok row → ∀ position, ∃ p own,
    (Profiler.new schema).observe position record = (.ok (), p) ∧ p.finish = .ok own ∧
    ∀ leaf ∈ Fields.leaves [] record, ∃ few many,
      own.blocks? leaf.name = some few ∧ w.blocks? leaf.name = some many ∧ few ≤ many

/-- The bytes that a profiler counts for each leaf of a padded record fit the widths. -/
theorem exists_room_of_padRecord (h : padRecord schema w index record = .ok row)
    (hleaf : leaf ∈ Fields.leaves [] record) : ∃ n blocks,
      leaf.length? schema = some n ∧ w.blocks? leaf.name = some blocks ∧ n ≤ blocks * 16 := by
  obtain ⟨row, hrow⟩ := (exists_padRecord_iff.mp ⟨_, h⟩).2 leaf hleaf
  obtain ⟨blocks, bytes, hblocks, hbytes, -, hfits, -⟩ := Leaf.pad_eq_ok_iff.mp hrow
  exact ⟨bytes.length, blocks,
    toOption_eq_some_iff.mpr (encodedLength_of_encodedBytes hbytes), hblocks, hfits⟩

theorem accepted_iff_of_padRecord (h : padRecord schema w index record = .ok row) :
    Accepted schema [] record ↔ Fields.WellNested schema [] record := by
  refine ⟨Accepted.wellNested, fun hnested => ⟨hnested, fun leaf hleaf => ?_⟩⟩
  obtain ⟨n, -, hn, -⟩ := exists_room_of_padRecord h hleaf
  rw [hn]
  rfl

/-- What a profiler rejects in a padded record is a record nested where it must not be. -/
theorem observe_eq_error_of_padRecord (h : padRecord schema w index record = .ok row)
    (hnested : ¬Fields.WellNested schema [] record) (position : Nat) :
    ∃ stop ∈ Fields.stops schema [] record, stop.columnClass schema ≠ .shared ∧
      ((Profiler.new schema).observe position record).1 =
        .error (.field position stop.path (.mismatch .nestedRecord)) := by
  have hobserved := Profiler.observe_observed (Profiler.new schema) position record
  cases hresult : (Profiler.new schema).observe position record with
  | mk outcome q =>
    rw [hresult] at hobserved
    cases hobserved with
    | accepted haccepted => exact absurd haccepted.wellNested hnested
    | @rejected stop e _ hstop he =>
      rcases stop_cases hstop with ⟨leaf, hleaf, rfl⟩ | ⟨⟨inner, hinner⟩, hclass⟩
      · -- The leaves of a padded record have lengths, so none of them is at fault.
        obtain ⟨n, -, hn, -⟩ := exists_room_of_padRecord h hleaf
        cases (toOption_eq_some_iff.mp hn).symm.trans he
      · refine ⟨stop, hstop, hclass, ?_⟩
        rw [Leaf.measure, hinner] at he
        cases he
        rfl

/-- Alone, a padded record is no wider than the widths. -/
theorem exists_blocks_le_of_padRecord (h : padRecord schema w index record = .ok row)
    (hleaf : leaf ∈ Fields.leaves [] record) : ∃ few many,
      (widthsOf schema (Leaf.length? schema) (tableLeaves [record])).blocks? leaf.name = some few ∧
        w.blocks? leaf.name = some many ∧ few ≤ many := by
  obtain ⟨n, many, hn, hmany, -⟩ := exists_room_of_padRecord h hleaf
  have hlength : n ∈ lengthsUnder (Leaf.length? schema) leaf.name (tableLeaves [record]) :=
    mem_lengthsUnder_table.mpr
      ⟨record, List.mem_singleton_self _, mem_lengthsUnder.mpr ⟨leaf, hleaf, rfl, hn⟩⟩
  obtain ⟨m, hmax, hm, -⟩ := exists_max?_ge hlength
  refine ⟨Block.count m, many, by rw [blocks?_widthsOf, hmax, Option.map_some], hmany, ?_⟩
  -- The longest leaf of this name has been padded too, to the same width.
  obtain ⟨record', hrecord', hm⟩ := mem_lengthsUnder_table.mp hm
  rw [List.mem_singleton.mp hrecord'] at hm
  obtain ⟨longest, hlongest, hname, hlength⟩ := mem_lengthsUnder.mp hm
  obtain ⟨m', many', hm', hmany', hfits⟩ := exists_room_of_padRecord h hlongest
  rw [hlength, Option.some.injEq] at hm'
  rw [hname, hmany, Option.some.injEq] at hmany'
  subst hm' hmany'
  exact Block.count_le_iff.mpr hfits

theorem paddedAsProfiled_iff : PaddedAsProfiled schema w record ↔
    ∀ index row, padRecord schema w index record = .ok row →
      Fields.WellNested schema [] record := by
  have hobserve : ∀ position p, (Profiler.new schema).observe position record = (.ok (), p) ↔
      Accepted schema [] record ∧ Profiler.after schema [record] = p :=
    fun position p => @Profiler.observe_after_eq_ok_iff schema [] record p position
  constructor
  · intro h index row hrow
    obtain ⟨p, -, hp, -⟩ := h index row hrow 0
    exact ((hobserve 0 p).mp hp).1.wellNested
  · intro h index row hrow position
    have haccepted := (accepted_iff_of_padRecord hrow).mpr (h index row hrow)
    exact ⟨_, _, (hobserve position _).mpr ⟨haccepted, rfl⟩,
      Profiler.finish_after (List.cons_ne_nil _ _),
      fun leaf hleaf => exists_blocks_le_of_padRecord hrow hleaf⟩

/-- Padding accepts nothing that profiling rejects, provided that it accepts no record nested in a
numeric column or in one in the clear. In a record that can be padded such a record is the only
fault that a profiler finds. -/
theorem padRecord_profiled (schema : Schema) (w : Widths) (record : PartyRecord) :
    (PaddedAsProfiled schema w record ↔ ∀ index row, padRecord schema w index record = .ok row →
      Fields.WellNested schema [] record) ∧
    ∀ index row, padRecord schema w index record = .ok row →
      (∀ leaf ∈ Fields.leaves [] record, ∃ n blocks, leaf.length? schema = some n ∧
        w.blocks? leaf.name = some blocks ∧ n ≤ blocks * 16) ∧
      (¬Fields.WellNested schema [] record → ∀ position, ∃ stop ∈ Fields.stops schema [] record,
        stop.columnClass schema ≠ .shared ∧
        ((Profiler.new schema).observe position record).1 =
          .error (.field position stop.path (.mismatch .nestedRecord))) :=
  ⟨paddedAsProfiled_iff, fun _ _ h => ⟨fun _ hleaf => exists_room_of_padRecord h hleaf,
    fun hnested position => observe_eq_error_of_padRecord h hnested position⟩⟩

/-- A record that is nested in a numeric column is padded, although a profiler rejects it. -/
theorem price_not_paddedAsProfiled :
    let w : Widths := ⟨receiptSchema.fingerprint, NameMap.ofList [("note", 1)]⟩
    ¬PaddedAsProfiled receiptSchema w [("price", .node [("note", .leaf "00 00")])] := by
  intro w h
  have hcheck : w.check receiptSchema = .ok () := if_pos rfl
  have hfields : padFields receiptSchema w 0 "" [("price", .node [("note", .leaf "00 00")])] =
    .ok [Block.zero] := by decide +kernel
  have hrow : padRecord receiptSchema w 0 [("price", .node [("note", .leaf "00 00")])] =
      .ok [Block.zero] := by
    rw [padRecord, hcheck, hfields]
  obtain ⟨p, -, hp, -⟩ := h 0 _ hrow 0
  have herror : ((Profiler.new receiptSchema).observe 0
      [("price", .node [("note", .leaf "00 00")])]).1 =
    .error (.field 0 "price" (.mismatch .nestedRecord)) := by decide +kernel
  rw [hp] at herror
  cases herror

end TriShare
