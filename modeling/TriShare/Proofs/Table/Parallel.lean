import TriShare.Proofs.Table.Chunk
import TriShare.Proofs.Table.Opened
import TriShare.Proofs.Table.Recordwise
import TriShare.Table.Parallel
/-!
Sharing by several workers refines sharing one record after the other: it fails with the same error,
and what it gives can come of sharing each record on its own and opens to the same.
-/

namespace TriShare

variable (schema : Schema) (table : List Record)

/-! ### Chunks -/

theorem joinChunks_cons (result : Except Error (Triple PartyTable))
    (rest : List (Except Error (Triple PartyTable))) :
    joinChunks (result :: rest) = joinResults result (joinChunks rest) := by
  cases result <;> rfl

/-- Chunks that cover a table from some position on are put together to views of the records from
there on. The induction is over the sizes of the chunks. -/
theorem recordwise_layOut (tapes : Nat → Nat → UInt8) (sizes : List Nat) :
    ∀ (start first : Nat), start + sizes.sum = table.length →
      Recordwise schema start (table.drop start)
        (joinChunks (((Chunk.layOut start sizes).zipIdx first).map fun (c, i) =>
          (shareRecords schema c.start (c.slice table) (Source.ofTape (tapes i))).1)) := by
  induction sizes with
  | nil =>
    intro start first hsum
    have hnil : table.drop start = [] :=
      List.drop_eq_nil_of_le (by simpa using hsum.ge)
    rw [hnil]
    exact .nil
  | cons size rest ih =>
    intro start first hsum
    rw [List.sum_cons] at hsum
    rw [Chunk.layOut]
    split
    · next hzero =>
      rw [hzero, Nat.zero_add] at hsum
      exact ih start first hsum
    · let chunk : Chunk := ⟨start, start + size⟩
      have hslice : chunk.slice table = (table.drop start).take size := by
        rw [Chunk.slice, Nat.add_sub_cancel_left]
      have hlength : (chunk.slice table).length = size := by
        rw [hslice, List.length_take, List.length_drop]
        omega
      have hdrop : table.drop start = chunk.slice table ++ table.drop (start + size) := by
        rw [hslice, ← List.drop_drop, List.take_append_drop]
      rw [List.zipIdx_cons, List.map_cons, joinChunks_cons, hdrop]
      refine (recordwise_shareRecords schema _ start _).append ?_
      rw [hlength]
      exact ih (start + size) (first + 1) (by omega)

/-- What the workers give can come of sharing each record on its own. -/
theorem recordwise_shareTableParallel (workers : Nat) (tapes : Nat → Nat → UInt8) :
    Recordwise schema 0 table (shareTableParallel schema table workers tapes) := by
  have hsum : 0 + (Chunk.sizes table.length workers).sum = table.length := by
    rw [Chunk.sum_sizes, Nat.zero_add]
  exact recordwise_layOut schema table tapes _ 0 0 hsum

/-! ### Refinement -/

variable {schema table}

/-- What a table opens to does not depend on the sources from which its records are shared. -/
theorem Recordwise.exists_openTable? (schema : Schema) (table : List Record) : ∃ opened,
    ∀ index views, Recordwise schema index table (.ok views) →
      openTable? schema views = some opened := by
  obtain ⟨opened, hopened⟩ := exists_openTables? schema table
  refine ⟨opened, fun index views h => ?_⟩
  obtain ⟨rows, hviews, hshared, -⟩ := h.rows
  have h1 : views.p1 = rows.map Triple.p1 := hviews .first
  have h2 : views.p2 = rows.map Triple.p2 := hviews .second
  have h3 : views.p3 = rows.map Triple.p3 := hviews .third
  rw [openTable?, h1, h2, h3]
  exact hopened rows (hshared.imp fun _ _ hrow => hrow.opens)

/-- Whatever the number of workers and their tapes are, a table is shared by them if and only if it
is shared from any one source, it fails with the same error, and each record of it is shared on its
own, in its place. Both ways of sharing open to the same. -/
theorem shareTableParallel_refines (schema : Schema) (table : List Record) (workers : Nat)
    (tapes : Nat → Nat → UInt8) (source : Source) :
    ((∃ views, shareTableParallel schema table workers tapes = .ok views) ↔
      ∃ views, (shareTable schema table source).1 = .ok views) ∧
    (∀ e, shareTableParallel schema table workers tapes = .error e ↔
      (shareTable schema table source).1 = .error e) ∧
    ∀ views, shareTableParallel schema table workers tapes = .ok views →
      (∀ p, (views.get p).length = table.length) ∧
      (∀ (i : Nat) (record : Record), table[i]? = some record → ∃ row : Triple PartyRecord,
        (∀ p, (views.get p)[i]? = some (row.get p)) ∧
        (∃ own rest, shareRecord schema i record own = (.ok row, rest)) ∧
        FieldViews (LeafOpens schema) [] record row) ∧
      ∃ opened, openTable? schema views = some opened ∧
        ∀ views', (shareTable schema table source).1 = .ok views' →
          openTable? schema views' = some opened := by
  have hparallel := recordwise_shareTableParallel schema table workers tapes
  have hsequential : Recordwise schema 0 table (shareTable schema table source).1 :=
    recordwise_shareRecords schema table 0 source
  refine ⟨?_, fun e => ?_, fun views hviews => ?_⟩
  · rw [hparallel.isOk_iff, hsequential.isOk_iff]
  · rw [hparallel.eq_error_iff, hsequential.eq_error_iff]
  rw [hviews] at hparallel
  obtain ⟨opened, hopened⟩ := Recordwise.exists_openTable? schema table
  obtain ⟨rows, hrows, hshared, hown⟩ := hparallel.rows
  have hlength : table.length = rows.length := hshared.length_eq
  refine ⟨fun p => ?_, fun i record hi => ?_, opened, hopened 0 views hparallel, ?_⟩
  · rw [hrows, List.length_map, hlength]
  · obtain ⟨hlt, hget⟩ := List.getElem?_eq_some_iff.mp hi
    have hlt' : i < rows.length := hlength ▸ hlt
    have hrow : rows[i]? = some rows[i] := List.getElem?_eq_getElem hlt'
    refine ⟨rows[i], fun p => ?_, ?_, ?_⟩
    · rw [hrows, List.getElem?_map, hrow, Option.map_some]
    · simpa using hown i record rows[i] hi hrow
    · have hview := (List.forall₂_iff_get.mp hshared).2 i hlt hlt'
      rw [List.get_eq_getElem, List.get_eq_getElem, hget] at hview
      exact hview.opens
  · intro views' hviews'
    rw [hviews'] at hsequential
    exact hopened 0 views' hsequential

/-- What the parties see of receipts that two workers shared, both from one tape. -/
def receiptViews : Triple PartyTable :=
  ⟨receiptView "6e74 0108" "7980878e959c97ab 4e474039322b241d",
    receiptView "0e1e 0f16" "d4c6b8aa9c8e8072 867f78716a635c55",
    receiptView "606a 6f7c" "b1b8bfc6cdd4cfe3 2b3947556371738e"⟩

theorem shareTableParallel_refines_receipts :
    let table := receipts "ab" (.number (.integer (-3)))
    shareTableParallel receiptSchema table 2 (fun _ => receiptTape) = .ok receiptViews ∧
    ∃ opened, openTable? receiptSchema receiptViews = some opened ∧ ∀ source views',
      (shareTable receiptSchema table source).1 = .ok views' →
        openTable? receiptSchema views' = some opened := by
  refine ⟨rfl, ?_⟩
  have hrefines := fun source =>
    (shareTableParallel_refines receiptSchema (receipts "ab" (.number (.integer (-3)))) 2
      (fun _ => receiptTape) source).2.2 receiptViews rfl
  obtain ⟨opened, hopened, -⟩ := (hrefines (.ofTape receiptTape)).2.2
  refine ⟨opened, hopened, fun source views' h => ?_⟩
  obtain ⟨opened', hopened', hsame⟩ := (hrefines source).2.2
  rw [hsame views' h, ← hopened', hopened]

end TriShare
