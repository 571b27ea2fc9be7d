import TriShare.Proofs.Record.Leaves
import TriShare.Proofs.Table.Opening
/-!
Records are shared independently of one another. `Recordwise` says what can come of a table when
each record is shared from a source of its own choice. Its error is that of the first record that
cannot be shared, whatever the sources are, and tables that are shared in parts can be put together.
-/

namespace TriShare

/-- What comes of sharing records, the first of which has the given index: the views of all of them,
each from some source, or the error of the first that has one. -/
inductive Recordwise (schema : Schema) :
    Nat → List Record → Except Error (Triple PartyTable) → Prop
  | nil {index : Nat} : Recordwise schema index [] (.ok (Triple.all []))
  | stop {index : Nat} {record : Record} {rest : List Record} {source source' : Source} {e : Error}
    (h : shareRecord schema index record source = (.error e, source')) :
    Recordwise schema index (record :: rest) (.error e)
  | step {index : Nat} {record : Record} {rest : List Record} {source source' : Source}
    {row : Triple PartyRecord} {result : Except Error (Triple PartyTable)}
    (h : shareRecord schema index record source = (.ok row, source'))
    (hrest : Recordwise schema (index + 1) rest result) :
    Recordwise schema index (record :: rest) (result.map (Triple.zipWith List.cons row))

/-- The error of the first record that cannot be shared. -/
def Schema.firstError (schema : Schema) : Nat → List Record → Option Error
  | _, [] => none
  | index, record :: rest =>
    match schema.firstRejection (schema.spots [] record) with
    | some r => some (r.inRecord index)
    | none => schema.firstError (index + 1) rest

variable {schema : Schema} {index : Nat} {record : Record} {records rest : List Record}
  {result result' : Except Error (Triple PartyTable)} {views : Triple PartyTable}

/-! ### Errors -/

theorem firstRejection_of_error {e : Error} {source source' : Source}
    (h : shareRecord schema index record source = (.error e, source')) :
    ∃ r, schema.firstRejection (schema.spots [] record) = some r ∧ e = r.inRecord index := by
  cases hfirst : schema.firstRejection (schema.spots [] record) with
  | none =>
    obtain ⟨row, hrow, -⟩ := shareRecord_of_sound hfirst index source
    simp [hrow] at h
  | some r =>
    rw [shareRecord_of_rejected hfirst, Prod.mk.injEq, Except.error.injEq] at h
    exact ⟨r, rfl, h.1.symm⟩

/-- The error does not depend on the sources. -/
theorem Recordwise.eq_error_iff (h : Recordwise schema index records result) {e : Error} :
    result = .error e ↔ schema.firstError index records = some e := by
  induction h with
  | nil => simp [Schema.firstError]
  | stop hrecord =>
    obtain ⟨r, hfirst, rfl⟩ := firstRejection_of_error hrecord
    simp [Schema.firstError, hfirst]
  | @step index record rest source source' row result hrecord _ ih =>
    have hfirst :
        schema.firstError index (record :: rest) = schema.firstError (index + 1) rest := by
      rw [Schema.firstError, sound_of_shareRecord hrecord]
    rw [hfirst, ← ih]
    cases result <;> simp [Except.map]

/-- A table that is shared from some sources is shared from all. -/
theorem Recordwise.isOk_iff (h : Recordwise schema index records result) :
    (∃ views, result = .ok views) ↔ schema.firstError index records = none := by
  constructor
  · rintro ⟨views, rfl⟩
    refine Option.eq_none_iff_forall_ne_some.mpr fun e he => ?_
    cases h.eq_error_iff.mpr he
  · intro hnone
    cases hresult : result with
    | error e => simp [h.eq_error_iff.mp hresult] at hnone
    | ok views => exact ⟨views, rfl⟩

/-! ### Putting tables together -/

/-- Sharing one record after the other from one source. -/
theorem recordwise_shareRecords (schema : Schema) (records : List Record) :
    ∀ (index : Nat) (source : Source),
      Recordwise schema index records (shareRecords schema index records source).1 := by
  induction records with
  | nil =>
    intro index source
    exact .nil
  | cons record rest ih =>
    intro index source
    rw [shareRecords]
    cases hrecord : shareRecord schema index record source with
    | mk outcome source₁ =>
      cases outcome with
      | error e => exact .stop hrecord
      | ok row =>
        have hstep := Recordwise.step hrecord (ih (index + 1) source₁)
        cases hrest : shareRecords schema (index + 1) rest source₁ with
        | mk outcome source₂ =>
          rw [hrest] at hstep
          simp only [hrest]
          cases outcome with
          | error e => exact hstep
          | ok views => exact hstep

/-- The views of two tables as those of one, or the first error. -/
def joinResults (result result' : Except Error (Triple PartyTable)) :
    Except Error (Triple PartyTable) :=
  match result with
  | .error e => .error e
  | .ok views => result'.map (Triple.zipWith List.append views)

theorem Recordwise.append (h : Recordwise schema index records result)
    (h' : Recordwise schema (index + records.length) rest result') :
    Recordwise schema index (records ++ rest) (joinResults result result') := by
  induction h with
  | nil =>
    cases result' with
    | error e => simpa [joinResults, Except.map] using h'
    | ok views => simpa [joinResults, Except.map, Triple.zipWith, Triple.all] using h'
  | stop hrecord => exact .stop hrecord
  | @step index record records source source' row result hrecord _ ih =>
    rw [List.length_cons, Nat.add_comm records.length, ← Nat.add_assoc] at h'
    have hstep := Recordwise.step hrecord (ih h')
    cases result with
    | error e => exact hstep
    | ok views =>
      cases result' with
      | error e => exact hstep
      | ok views' => exact hstep

/-! ### Rows -/

mutual

theorem wellNestedAt_of_sound : ∀ {outer : List String} {name : String} {v : Value},
    schema.firstRejection (schema.spotsAt outer name v) = none →
      Tree.WellNested schema outer name v
  | _, _, .leaf _, _ => by
    rw [Tree.WellNested]
    trivial
  | outer, name, .node fields, h => by
    have hclass := schema.classAt_of_sound h
    rw [Schema.spotsAt, hclass] at h
    rw [Tree.WellNested]
    exact ⟨hclass, wellNested_of_sound h⟩

/-- Where nothing is bad, records are nested in byte-shared columns only. -/
theorem wellNested_of_sound : ∀ {outer : List String} {fields : List (String × Value)},
    schema.firstRejection (schema.spots outer fields) = none →
      Fields.WellNested schema outer fields
  | _, [], _ => by
    rw [Fields.WellNested]
    trivial
  | _, (_, _) :: _, h => by
    rw [Schema.spots, Schema.firstRejection_append, Option.or_eq_none_iff] at h
    rw [Fields.WellNested]
    exact ⟨wellNestedAt_of_sound h.1, wellNested_of_sound h.2⟩

end

/-- What the parties get for a record. -/
structure SharedRow (schema : Schema) (record : Record) (row : Triple PartyRecord) : Prop where
  wellNested : Fields.WellNested schema [] record
  opens : FieldViews (LeafOpens schema) [] record row

theorem sharedRow_of_shareRecord {row : Triple PartyRecord} {source source' : Source}
    (h : shareRecord schema index record source = (.ok row, source')) :
    SharedRow schema record row where
  wellNested := wellNested_of_sound (sound_of_shareRecord h)
  opens := (shareRecord_views h).1.imp fun _ _ _ _ _ => LeafShared.opens

/-- The views of a table, row by row: each is that of its record, from some source. -/
theorem Recordwise.rows (h : Recordwise schema index records (.ok views)) :
    ∃ rows : List (Triple PartyRecord), (∀ p, views.get p = rows.map (Triple.get · p)) ∧
      List.Forall₂ (SharedRow schema) records rows ∧
      ∀ (i : Nat) (record : Record) (row : Triple PartyRecord), records[i]? = some record →
        rows[i]? = some row → ∃ source source',
          shareRecord schema (index + i) record source = (.ok row, source') := by
  generalize hresult : (Except.ok views : Except Error (Triple PartyTable)) = result at h
  induction h generalizing views with
  | nil =>
    cases hresult
    exact ⟨[], fun p => Triple.get_all [] p, .nil, by simp⟩
  | stop _ => cases hresult
  | @step index record records source source' row result hrecord _ ih =>
    cases result with
    | error e => cases hresult
    | ok views' =>
      obtain ⟨rows, hviews, hshared, hrows⟩ := ih rfl
      cases hresult
      refine ⟨row :: rows, fun p => ?_, .cons (sharedRow_of_shareRecord hrecord) hshared, ?_⟩
      · rw [Triple.get_zipWith, List.map_cons, ← hviews p]
      · rintro (_ | i) record' row' hi hi'
        · simp only [List.getElem?_cons_zero, Option.some.injEq] at hi hi'
          subst hi hi'
          exact ⟨source, source', hrecord⟩
        · obtain ⟨own, rest, hshare⟩ := hrows i record' row' hi hi'
          exact ⟨own, rest, by rw [← hshare, Nat.add_assoc, Nat.add_comm 1]⟩

end TriShare
