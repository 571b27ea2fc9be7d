import TriShare.Proofs.Padding.Block
import TriShare.Proofs.Profile.Measure
import TriShare.Proofs.Profile.Stops
import TriShare.Proofs.Table.Opening
/-!
The widths that a profiler finds, after any calls that succeed. Its state is known from the records
that it was shown (`run_after_iff`), so its widths are the greatest lengths under each name,
whatever the order of the records and the calls that showed them.
-/

namespace TriShare

/-! ### Widths from lengths -/

section WidthsOf

variable {α : Type} {schema : Schema} {length? : Leaf α → Option Nat} {name : String}

/-- The widths that hold every length. -/
def widthsOf (schema : Schema) (length? : Leaf α → Option Nat) (leaves : List (Leaf α)) : Widths :=
  ⟨schema.fingerprint, (gather length? leaves).map Block.count⟩

theorem blocks?_widthsOf (leaves : List (Leaf α)) :
    (widthsOf schema length? leaves).blocks? name =
      (lengthsUnder length? name leaves).max?.map Block.count := by
  rw [Widths.blocks?, widthsOf, NameMap.get?_map, get?_gather]

/-- Where all leaves have a length, there is a width for every name of a leaf and for no other. -/
theorem blocks?_widthsOf_eq_none_iff {leaves : List (Leaf α)}
    (h : ∀ leaf ∈ leaves, (length? leaf).isSome) :
    (widthsOf schema length? leaves).blocks? name = none ↔ ∀ leaf ∈ leaves, leaf.name ≠ name := by
  rw [blocks?_widthsOf, Option.map_eq_none_iff, List.max?_eq_none_iff,
    List.eq_nil_iff_forall_not_mem]
  constructor
  · rintro hnone leaf hleaf rfl
    obtain ⟨n, hn⟩ := Option.isSome_iff_exists.mp (h leaf hleaf)
    exact hnone n (mem_lengthsUnder.mpr ⟨leaf, hleaf, rfl, hn⟩)
  · intro hnames n hn
    obtain ⟨leaf, hleaf, hname, -⟩ := mem_lengthsUnder.mp hn
    exact hnames leaf hleaf hname

theorem widthsOf_eq_iff {leaves leaves' : List (Leaf α)} :
    widthsOf schema length? leaves = widthsOf schema length? leaves' ↔ ∀ name,
      (lengthsUnder length? name leaves).max?.map Block.count =
        (lengthsUnder length? name leaves').max?.map Block.count := by
  constructor
  · intro h name
    rw [← @blocks?_widthsOf α schema, ← @blocks?_widthsOf α schema, h]
  · intro h
    have hblocks : ∀ name, (widthsOf schema length? leaves).blocks? name =
        (widthsOf schema length? leaves').blocks? name := by
      intro name
      rw [blocks?_widthsOf, blocks?_widthsOf, h]
    rw [widthsOf, widthsOf, Widths.mk.injEq]
    exact ⟨rfl, NameMap.ext hblocks⟩

/-- Equal lengths under all names give equal widths, in whatever order they were seen. -/
theorem widthsOf_congr {β : Type} {length?' : Leaf β → Option Nat} {leaves : List (Leaf α)}
    {leaves' : List (Leaf β)} (h : ∀ name n, n ∈ lengthsUnder length? name leaves ↔
      n ∈ lengthsUnder length?' name leaves') :
    widthsOf schema length? leaves = widthsOf schema length?' leaves' := by
  have hcolumns : gather length? leaves = gather length?' leaves' := by
    refine NameMap.ext fun name => ?_
    rw [get?_gather, get?_gather, max?_congr (h name)]
  rw [widthsOf, widthsOf, hcolumns]

theorem mem_lengthsUnder_table {table : List (Fields α)} {n : Nat} :
    n ∈ lengthsUnder length? name (tableLeaves table) ↔
      ∃ record ∈ table, n ∈ lengthsUnder length? name (Fields.leaves [] record) := by
  simp only [mem_lengthsUnder, tableLeaves, List.mem_flatMap]
  constructor
  · rintro ⟨leaf, ⟨record, hrecord, hleaf⟩, hname⟩
    exact ⟨record, hrecord, leaf, hleaf, hname⟩
  · rintro ⟨record, hrecord, leaf, hleaf, hname⟩
    exact ⟨leaf, ⟨record, hrecord, hleaf⟩, hname⟩

end WidthsOf

/-! ### Runs -/

namespace Profiler

/-- A call that shows records to a profiler. -/
inductive Call
  | record (index : Nat) (record : PartyRecord)
  | table (table : PartyTable)

/-- The records that a call shows. -/
def Call.records : Call → PartyTable
  | .record _ r => [r]
  | .table rs => rs

/-- The records that calls show, in order. -/
def shown (calls : List Call) : PartyTable := calls.flatMap Call.records

def call (p : Profiler) : Call → Except Error Unit × Profiler
  | .record index r => p.observe index r
  | .table rs => p.observeTable rs

/-- Calls one after the other, all of which succeed. -/
inductive Run : Profiler → List Call → Profiler → Prop
  | nil {p : Profiler} : Run p [] p
  | cons {p q r : Profiler} {c : Call} {calls : List Call} (h : p.call c = (.ok (), q))
    (hrest : Run q calls r) : Run p (c :: calls) r

theorem Run.of_ok {p r : Profiler} {c : Call} {calls : List Call} (h : (p.call c).1 = .ok ())
    (hrest : Run (p.call c).2 calls r) : Run p (c :: calls) r :=
  .cons (Prod.ext h rfl) hrest

/-- The profiler that has accepted these records. -/
def after (schema : Schema) (records : PartyTable) : Profiler :=
  ⟨schema, gather (Leaf.length? schema) (tableLeaves records), records.length⟩

variable {schema : Schema} {seen records : PartyTable} {record : PartyRecord} {p : Profiler}

/-! ### Steps -/

theorem observe_after_eq_ok_iff {index : Nat} :
    (after schema seen).observe index record = (.ok (), p) ↔
      Accepted schema [] record ∧ after schema (seen ++ [record]) = p := by
  have hfields := fun lengths' => @observeFields_eq_ok_iff schema [] record
    (gather (Leaf.length? schema) (tableLeaves seen)) lengths'
  have hpath : pathOf [] = "" := rfl
  have hgather : gather (Leaf.length? schema) (tableLeaves (seen ++ [record])) =
      (Fields.leaves [] record).foldl (note (Leaf.length? schema))
        (gather (Leaf.length? schema) (tableLeaves seen)) := by
    simp [gather, tableLeaves, List.foldl_append]
  rw [hpath] at hfields
  rw [observe]
  simp only [after] at hfields ⊢
  cases hresult : observeFields schema "" record
      (gather (Leaf.length? schema) (tableLeaves seen)) with
  | mk outcome lengths' =>
    cases outcome with
    | error r =>
      simp only [Prod.mk.injEq, reduceCtorEq, false_and, false_iff]
      rintro ⟨haccepted, -⟩
      have hok := (hfields _).mpr ⟨haccepted, rfl⟩
      simp [hresult] at hok
    | ok u =>
      obtain ⟨haccepted, hfold⟩ := (hfields lengths').mp hresult
      simp [haccepted, hgather, hfold]

theorem observeFrom_after_eq_ok_iff : ∀ {index : Nat} {seen : PartyTable},
    (after schema seen).observeFrom index records = (.ok (), p) ↔
      (∀ record ∈ records, Accepted schema [] record) ∧ after schema (seen ++ records) = p := by
  induction records with
  | nil => simp [observeFrom]
  | cons record records ih =>
    intro index seen
    have hrecord := fun q => @observe_after_eq_ok_iff schema seen record q index
    rw [observeFrom]
    cases hresult : (after schema seen).observe index record with
    | mk outcome q =>
      cases outcome with
      | error e =>
        simp only [Prod.mk.injEq, reduceCtorEq, false_and, false_iff]
        rintro ⟨haccepted, -⟩
        have hok := (hrecord _).mpr ⟨haccepted record List.mem_cons_self, rfl⟩
        simp [hresult] at hok
      | ok u =>
        obtain ⟨haccepted, rfl⟩ := (hrecord q).mp hresult
        simp only
        rw [ih]
        simp [haccepted, List.append_assoc]

theorem call_after_eq_ok_iff {c : Call} : (after schema seen).call c = (.ok (), p) ↔
    (∀ record ∈ c.records, Accepted schema [] record) ∧ after schema (seen ++ c.records) = p := by
  cases c with
  | record index r => rw [call, observe_after_eq_ok_iff, Call.records, List.forall_mem_singleton]
  | table rs => exact observeFrom_after_eq_ok_iff

/-- A run succeeds if and only if the records that it shows are accepted, and these records are all
that its last state depends on. -/
theorem run_after_iff {calls : List Call} : ∀ {seen : PartyTable},
    Run (after schema seen) calls p ↔
      (∀ r ∈ shown calls, Accepted schema [] r) ∧ after schema (seen ++ shown calls) = p := by
  induction calls with
  | nil =>
    intro seen
    simp only [shown, List.flatMap_nil, List.append_nil]
    constructor
    · rintro ⟨⟩
      exact ⟨by simp, rfl⟩
    · rintro ⟨-, rfl⟩
      exact .nil
  | cons c calls ih =>
    intro seen
    have hshown : shown (c :: calls) = c.records ++ shown calls := List.flatMap_cons
    rw [hshown, List.forall_mem_append, ← List.append_assoc]
    constructor
    · rintro (_ | ⟨hcall, hrest⟩)
      obtain ⟨hfirst, rfl⟩ := call_after_eq_ok_iff.mp hcall
      obtain ⟨haccepted, hp⟩ := ih.mp hrest
      exact ⟨⟨hfirst, haccepted⟩, hp⟩
    · rintro ⟨⟨hfirst, haccepted⟩, hp⟩
      exact .cons (call_after_eq_ok_iff.mpr ⟨hfirst, rfl⟩) (ih.mpr ⟨haccepted, hp⟩)

/-- In particular from a new profiler. -/
theorem run_new_iff {calls : List Call} : Run (.new schema) calls p ↔
    (∀ r ∈ shown calls, Accepted schema [] r) ∧ after schema (shown calls) = p :=
  @run_after_iff schema p calls []

/-! ### Results -/

theorem finish_after (hne : records ≠ []) : (after schema records).finish =
    .ok (widthsOf schema (Leaf.length? schema) (tableLeaves records)) := by
  have hlength : (after schema records).records ≠ 0 := fun h => hne (List.length_eq_zero_iff.mp h)
  rw [finish, if_neg hlength]
  rfl

theorem finish_after_eq_emptyTable_iff :
    (after schema records).finish = .error .emptyTable ↔ records = [] := by
  constructor
  · intro hfinish
    by_contra hne
    cases (finish_after hne).symm.trans hfinish
  · rintro rfl
    rfl

theorem finish_after_eq_ok {w : Widths} (h : (after schema records).finish = .ok w) :
    records ≠ [] ∧ w = widthsOf schema (Leaf.length? schema) (tableLeaves records) := by
  by_cases hne : records = []
  · subst hne
    cases h
  · rw [finish_after hne, Except.ok.injEq] at h
    exact ⟨hne, h.symm⟩

/-- Which records were shown is all that matters, not in which order and how often. -/
theorem finish_after_congr {records' : PartyTable} (h : ∀ r, r ∈ records' ↔ r ∈ records) :
    (after schema records').finish = (after schema records).finish := by
  by_cases hne : records = []
  · have hne' : records' = [] := by
      simpa [hne, List.eq_nil_iff_forall_not_mem] using h
    rw [hne, hne']
  · have hne' : records' ≠ [] := by
      rintro rfl
      refine hne (List.eq_nil_iff_forall_not_mem.mpr fun r hr => ?_)
      exact List.not_mem_nil ((h r).mpr hr)
    rw [finish_after hne, finish_after hne', widthsOf_congr fun name n => ?_]
    simp only [mem_lengthsUnder_table, h]

/-- Further leaves make no width smaller. -/
theorem blocks?_le_of_subset {more : PartyTable} (h : records ⊆ more) {name : String} {blocks : Nat}
    (hblocks : (widthsOf schema (Leaf.length? schema) (tableLeaves records)).blocks? name =
      some blocks) : ∃ blocks',
      (widthsOf schema (Leaf.length? schema) (tableLeaves more)).blocks? name = some blocks' ∧
        blocks ≤ blocks' := by
  rw [blocks?_widthsOf, Option.map_eq_some_iff] at hblocks
  obtain ⟨n, hn, rfl⟩ := hblocks
  obtain ⟨record, hrecord, hmem⟩ := mem_lengthsUnder_table.mp (List.max?_mem hn)
  have hmore : n ∈ lengthsUnder (Leaf.length? schema) name (tableLeaves more) :=
    mem_lengthsUnder_table.mpr ⟨record, h hrecord, hmem⟩
  obtain ⟨m, hmax, -, hle⟩ := exists_max?_ge hmore
  exact ⟨Block.count m, by rw [blocks?_widthsOf, hmax, Option.map_some], Block.count_mono hle⟩

/-- The widths of records are the greatest of the widths of parts of which they consist. -/
theorem finish_of_parts {parts : List (List Call × Widths)} (hne : parts ≠ [])
    (hparts : ∀ part ∈ parts, (after schema (shown part.1)).finish = .ok part.2)
    (h : ∀ r, r ∈ records ↔ ∃ part ∈ parts, r ∈ shown part.1) :
    ∃ w, (after schema records).finish = .ok w ∧
      ∀ name, w.blocks? name = (parts.filterMap fun part => part.2.blocks? name).max? := by
  have hrecords : records ≠ [] := by
    obtain ⟨part, hpart⟩ := List.exists_mem_of_ne_nil _ hne
    obtain ⟨r, hr⟩ := List.exists_mem_of_ne_nil _ (finish_after_eq_ok (hparts part hpart)).1
    exact List.ne_nil_of_mem ((h r).mpr ⟨part, hpart, hr⟩)
  refine ⟨_, finish_after hrecords, fun name => ?_⟩
  have hlengths : ∀ n, n ∈ lengthsUnder (Leaf.length? schema) name (tableLeaves records) ↔
      ∃ lengths ∈ parts.map fun part =>
        lengthsUnder (Leaf.length? schema) name (tableLeaves (shown part.1)), n ∈ lengths := by
    intro n
    simp only [List.mem_map, exists_exists_and_eq_and, mem_lengthsUnder_table, h]
    constructor
    · rintro ⟨r, ⟨part, hpart, hr⟩, hn⟩
      exact ⟨part, hpart, r, hr, hn⟩
    · rintro ⟨part, hpart, r, hr, hn⟩
      exact ⟨r, ⟨part, hpart, hr⟩, hn⟩
  rw [blocks?_widthsOf, max?_map_of_parts Block.count_mono hlengths, List.filterMap_map]
  refine congrArg List.max? (List.filterMap_congr fun part hpart => ?_)
  rw [(finish_after_eq_ok (hparts part hpart)).2, blocks?_widthsOf]
  rfl

/-- How many bytes the texts of the leaves with a name stand for. -/
def byteCounts (schema : Schema) (name : String) (leaves : List (Leaf String)) : List Nat :=
  (leaves.filter fun leaf => leaf.name = name).map fun leaf =>
    byteCount (leaf.columnClass schema) leaf.value

/-- Of leaves that have lengths these are the lengths. -/
theorem lengthsUnder_eq_byteCounts {leaves : List (Leaf String)} {name : String}
    (h : ∀ leaf ∈ leaves, (leaf.length? schema).isSome) :
    lengthsUnder (Leaf.length? schema) name leaves = byteCounts schema name leaves := by
  induction leaves with
  | nil => rfl
  | cons leaf leaves ih =>
    rw [List.forall_mem_cons] at h
    obtain ⟨n, hn⟩ := Option.isSome_iff_exists.mp h.1
    have hcount := byteCount_of_encodedLength (toOption_eq_some_iff.mp hn)
    rw [← List.singleton_append, lengthsUnder_append, lengthsUnder_singleton, ih h.2, byteCounts,
      byteCounts, List.filter_append, List.map_append, hn]
    by_cases hname : leaf.name = name <;> simp [hname, hcount]

/-- What holds of a profiler after calls that all succeed. -/
structure Profiled (schema : Schema) (calls : List Call) (p : Profiler) : Prop where
  records : p.records = (shown calls).length
  /-- The widths are missing only if there are no records. -/
  empty : p.finish = .error .emptyTable ↔ p.records = 0
  /-- Each name of a leaf has the width of the longest text, and no other name has one. -/
  widths : p.records ≠ 0 → ∃ w, p.finish = .ok w ∧ w.fingerprint = schema.fingerprint ∧ ∀ name,
    w.blocks? name = (byteCounts schema name (tableLeaves (shown calls))).max?.map
      (fun bytes => (bytes + 15) / 16) ∧
    (w.blocks? name = none ↔ ∀ leaf ∈ tableLeaves (shown calls), leaf.name ≠ name)
  /-- The widths depend on nothing but which records were shown. -/
  same : ∀ calls', (∀ r, r ∈ shown calls' ↔ r ∈ shown calls) →
    (∃ p', Run (.new schema) calls' p') ∧ ∀ p', Run (.new schema) calls' p' → p'.finish = p.finish
  /-- Further records make no width smaller and remove none. -/
  grows : ∀ more p', Run p more p' → ∀ w, p.finish = .ok w → ∃ w', p'.finish = .ok w' ∧
    ∀ name blocks, w.blocks? name = some blocks →
      ∃ blocks', w'.blocks? name = some blocks' ∧ blocks ≤ blocks'
  /-- The widths of several parts put together are the greatest of their widths. -/
  merged : ∀ parts : List (List Call × Widths), parts ≠ [] →
    (∀ part ∈ parts, ∃ q, Run (.new schema) part.1 q ∧ q.finish = .ok part.2) →
    (∀ r, r ∈ shown calls ↔ ∃ part ∈ parts, r ∈ shown part.1) →
    ∃ w, p.finish = .ok w ∧
      ∀ name, w.blocks? name = (parts.filterMap fun part => part.2.blocks? name).max?

/-- A profiler finds the greatest lengths of all that it was shown, and nothing else. -/
theorem run_profiled {calls : List Call} (h : Run (.new schema) calls p) :
    Profiled schema calls p := by
  obtain ⟨haccepted, rfl⟩ := run_new_iff.mp h
  have hempty : (after schema (shown calls)).records = 0 ↔ shown calls = [] :=
    List.length_eq_zero_iff
  constructor
  case records => rfl
  case empty => rw [hempty, finish_after_eq_emptyTable_iff]
  case widths =>
    intro hne
    have hlengths : ∀ leaf ∈ tableLeaves (shown calls), (leaf.length? schema).isSome := by
      intro leaf hleaf
      obtain ⟨r, hr, hmem⟩ := List.mem_flatMap.mp hleaf
      exact (haccepted r hr).lengths leaf hmem
    refine ⟨_, finish_after (mt hempty.mpr hne), rfl, fun name =>
      ⟨?_, blocks?_widthsOf_eq_none_iff hlengths⟩⟩
    rw [blocks?_widthsOf, lengthsUnder_eq_byteCounts hlengths]
    rfl
  case same =>
    intro calls' hsame
    refine ⟨⟨_, run_new_iff.mpr ⟨fun r hr => haccepted r ((hsame r).mp hr), rfl⟩⟩, ?_⟩
    intro p' h'
    obtain ⟨-, rfl⟩ := run_new_iff.mp h'
    exact finish_after_congr hsame
  case grows =>
    intro more p' h' w hw
    obtain ⟨-, rfl⟩ := run_after_iff.mp h'
    obtain ⟨hne, rfl⟩ := finish_after_eq_ok hw
    have hne' : shown calls ++ shown more ≠ [] := List.append_ne_nil_of_left_ne_nil hne _
    exact ⟨_, finish_after hne', fun name blocks hblocks =>
      blocks?_le_of_subset (List.subset_append_left _ _) hblocks⟩
  case merged =>
    intro parts hparts hruns hunion
    refine finish_of_parts hparts (fun part hpart => ?_) hunion
    obtain ⟨q, hrun, hfinish⟩ := hruns part hpart
    obtain ⟨-, rfl⟩ := run_new_iff.mp hrun
    exact hfinish

theorem run_profiled_receipts :
    let table := Call.table (receiptView "6e74 0108" "7980878e959c97ab 4e474039322b241d")
    let record := Call.record 0 [("note", .leaf "0e1e 0f16")]
    let p := ((new receiptSchema).call table).2
    Run (.new receiptSchema) [table, record] (p.call record).2 ∧
      Profiled receiptSchema [table, record] (p.call record).2 := by
  intro table record p
  have htable : ((new receiptSchema).call table).1 = .ok () := by decide +kernel
  have hrecord : (p.call record).1 = .ok () := by decide +kernel
  have hrun : Run (.new receiptSchema) [table, record] (p.call record).2 :=
    .of_ok htable (.of_ok hrecord .nil)
  exact ⟨hrun, run_profiled hrun⟩

end Profiler

end TriShare
