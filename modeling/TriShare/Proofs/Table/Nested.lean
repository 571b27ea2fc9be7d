import TriShare.Proofs.Table.Opening
/-!
Columns of nested records are to be byte-shared whatever their names (`NestedLaw`). They are told
from the outermost ones by their path, which is also empty inside columns with empty names, so a
nested column can be exposed to the classification by name. `nestedLaw_iff` says that the law fails
for exactly the records in which this shows: one that is shared with an exposed leaf in it, and one
whose first bad value is exposed and no text.
-/

namespace TriShare

/-- A single value that is shared as text. -/
def ByteShared (schema : Schema) (x : Scalar) (texts : Triple String) : Prop :=
  ∃ text, x = .text text ∧ (Content.bytes text).OpensTo schema.precision texts

/-- Every leaf inside a nested record is shared as text. -/
def NestedLeaf (schema : Schema) : LeafLaw := fun outer _ x texts =>
  outer ≠ [] → ByteShared schema x texts

/-- The columns of nested records are byte-shared, and hold nothing but texts and records. -/
structure NestedLaw (schema : Schema) (record : Record) : Prop where
  byteShared : ∀ index source views source',
    shareRecord schema index record source = (.ok views, source') →
      FieldViews (NestedLeaf schema) [] record views
  fails : ∀ outer name x, ⟨outer, name, .leaf x⟩ ∈ Record.leaves [] record → outer ≠ [] →
    (∀ text, x ≠ .text text) → ∀ index source, ∃ e source',
      shareRecord schema index record source = (.error e, source')
  unsupported : ∀ outer name x,
    schema.firstBad (schema.spots [] record) = some ⟨outer, name, .leaf x⟩ → outer ≠ [] →
    (∀ text, x ≠ .text text) → ∀ index source, ∃ source',
      shareRecord schema index record source =
        (.error (.field index (joinPath (pathOf outer) name) (.unsupported x.kind)), source')

/-- A nested column that is classified by its name: its path does not show that it is nested, and
its name is in one of the sets. -/
def Exposed (schema : Schema) (outer : List String) (name : String) : Prop :=
  outer ≠ [] ∧ (∀ n ∈ outer, n = "") ∧ schema.classify name ≠ .shared

/-! ### Classes -/

variable {schema : Schema} {outer : List String} {name : String} {x : Scalar} {record : Record}

theorem exposed_iff :
    Exposed schema outer name ↔ outer ≠ [] ∧ schema.classAt (pathOf outer) name ≠ .shared := by
  rw [Exposed, Schema.classAt]
  by_cases h : ∀ n ∈ outer, n = ""
  · rw [if_pos (pathOf_eq_empty.mpr h)]
    exact ⟨fun hexposed => ⟨hexposed.1, hexposed.2.2⟩, fun hclass => ⟨hclass.1, h, hclass.2⟩⟩
  · rw [if_neg (mt pathOf_eq_empty.mp h)]
    exact ⟨fun hexposed => absurd hexposed.2.1 h, fun hclass => absurd rfl hclass.2⟩

theorem classAt_of_not_exposed (hnested : outer ≠ []) (h : ¬Exposed schema outer name) :
    schema.classAt (pathOf outer) name = .shared := by
  rw [exposed_iff] at h
  exact not_not.mp fun hclass => h ⟨hnested, hclass⟩

/-- A byte-shared column takes texts for texts, and nothing else for anything. -/
theorem content_shared (x : Scalar) :
    (∃ text, x = .text text ∧ ColumnClass.shared.content x = .ok (.bytes text)) ∨
      (∀ text, x ≠ .text text) ∧ ColumnClass.shared.content x = .error (.unsupported x.kind) := by
  cases x with
  | text s => exact .inl ⟨s, rfl, rfl⟩
  | null => exact .inr ⟨fun _ => Scalar.noConfusion, rfl⟩
  | bool b => exact .inr ⟨fun _ => Scalar.noConfusion, rfl⟩
  | number n => exact .inr ⟨fun _ => Scalar.noConfusion, rfl⟩
  | array => exact .inr ⟨fun _ => Scalar.noConfusion, rfl⟩

theorem numeric_fault?_ne_unsupported (precision : Nat) (text : String) (kind : ValueKind) :
    (Content.numeric text).fault? precision ≠ some (.unsupported kind) := by
  rw [Content.fault?, FixedPoint.encode]
  cases Decimal.parse? (Text.trim text.toList) with
  | none => simp
  | some d => cases h : FixedPoint.ofDecimal? precision d <;> simp [h]

/-- Where columns are not byte-shared, no value is unsupported. -/
theorem fault?_ne_unsupported (h : schema.classAt (pathOf outer) name ≠ .shared)
    (kind : ValueKind) :
    (⟨outer, name, .leaf x⟩ : Spot).fault? schema ≠ some (.unsupported kind) := by
  have hnumeric := fun text => numeric_fault?_ne_unsupported schema.precision text kind
  simp only [Spot.fault?, Spot.content, Spot.columnClass]
  cases hclass : schema.classAt (pathOf outer) name with
  | shared => exact absurd hclass h
  | passthrough => cases x <;> simp [ColumnClass.content, ColumnClass.refuse, Content.fault?]
  | numeric => cases x <;> simp [ColumnClass.content, ColumnClass.refuse, hnumeric]

/-! ### Leaves of a record without a bad value -/

theorem fault?_eq_none {list : List Spot} (h : schema.firstRejection list = none) {spot : Spot}
    (hmem : spot ∈ list) : spot.fault? schema = none :=
  Option.map_eq_none_iff.mp (List.findSome?_eq_none_iff.mp h spot hmem)

mutual

theorem leavesAt_subset : ∀ {outer : List String} {name : String} {v : Value},
    schema.firstRejection (schema.spotsAt outer name v) = none →
      Record.leavesAt outer name v ⊆ schema.spotsAt outer name v
  | _, _, .leaf _, _ => by
    rw [Record.leavesAt, Schema.spotsAt]
    exact List.Subset.refl _
  | outer, name, .node fields, h => by
    have hclass := schema.classAt_of_sound h
    rw [Record.leavesAt]
    rw [Schema.spotsAt, hclass] at h ⊢
    exact leaves_subset h

/-- No leaf is left out where nothing is bad. -/
theorem leaves_subset : ∀ {outer : List String} {fields : List (String × Value)},
    schema.firstRejection (schema.spots outer fields) = none →
      Record.leaves outer fields ⊆ schema.spots outer fields
  | _, [], _ => by
    rw [Record.leaves]
    exact List.nil_subset _
  | _, (_, _) :: _, h => by
    rw [Record.leaves]
    rw [Schema.spots] at h ⊢
    rw [Schema.firstRejection_append, Option.or_eq_none_iff] at h
    exact List.append_subset.mpr
      ⟨List.subset_append_of_subset_left _ (leavesAt_subset h.1),
        List.subset_append_of_subset_right _ (leaves_subset h.2)⟩

end

/-! ### A nested leaf that is not exposed -/

theorem byteShared_of_not_exposed (hnested : outer ≠ []) (h : ¬Exposed schema outer name)
    {tape : Nat → UInt8} {texts : Triple String}
    (hshared : LeafShared schema tape outer name x texts) : ByteShared schema x texts := by
  obtain ⟨content, hcontent, hopens⟩ := hshared.opens
  rw [classAt_of_not_exposed hnested h] at hcontent
  rcases content_shared x with ⟨text, hx, hbytes⟩ | ⟨-, herror⟩
  · rw [hbytes, Except.ok.injEq] at hcontent
    exact ⟨text, hx, hcontent ▸ hopens⟩
  · simp [herror] at hcontent

theorem fault?_of_not_exposed (hnested : outer ≠ []) (h : ¬Exposed schema outer name)
    (hx : ∀ text, x ≠ .text text) :
    (⟨outer, name, .leaf x⟩ : Spot).fault? schema = some (.unsupported x.kind) := by
  simp only [Spot.fault?, Spot.content, Spot.columnClass, classAt_of_not_exposed hnested h]
  rcases content_shared x with ⟨text, htext, -⟩ | ⟨-, herror⟩
  · exact absurd htext (hx text)
  · rw [herror]

/-! ### A leaf that is exposed -/

/-- The word of eight equal bytes. -/
def constantWord (b : UInt8) : UInt64 := UInt64.ofNat (Bytes.value (List.replicate 8 b))

/-- With equal bytes on the tape, a number that were also shared byte by byte would have its third
component for its text. -/
theorem shown_eq_ofWord {precision drawn : Nat} {b : UInt8} {text : String} {num : UInt64}
    {plain : List UInt8} {texts : Triple String}
    (hencode : FixedPoint.encode precision text = .ok num) (hplain : Latin1.encode text = .ok plain)
    (hshare : ((Content.numeric text).share precision ⟨fun _ => b, drawn⟩).1 = .ok texts)
    (hopens : (Content.bytes text).OpensTo precision texts) :
    Bytewise.shown plain = Bytes.ofWord (num - constantWord b - constantWord b) := by
  obtain ⟨plain', hplain', t, s, hcomponents, hread⟩ := hopens
  rw [hplain, Except.ok.injEq] at hplain'
  subst hplain'
  let components := Additive.split num (constantWord b) (constantWord b)
  have hnumeric : Replicated.ReadAs 8 texts ((Additive.redundant components).map Bytes.ofWord)
      (components.map Bytes.ofWord) := by
    have hdraw : (Additive.draw num ⟨fun _ => b, drawn⟩).1 = components := rfl
    simp only [Content.share, hencode, hdraw, Except.ok.injEq] at hshare
    rw [← hshare]
    exact Additive.readAs_shares components
  have h1 : s.p1 = Bytes.ofWord (constantWord b) := ((hread .first).unique (hnumeric .first)).2
  have h2 : s.p2 = Bytes.ofWord (constantWord b) := ((hread .second).unique (hnumeric .second)).2
  have h3 : s.p3 = Bytes.ofWord (num - constantWord b - constantWord b) :=
    ((hread .third).unique (hnumeric .third)).2
  rw [← hcomponents.components, h1, h2, h3, Bytes.xor_comm, ← Bytes.xor_assoc]
  exact Bytes.xor_xor_cancel (by rw [Bytes.length_ofWord, Bytes.length_ofWord])

/-- A text that is given as it is, is too short for a share of itself. -/
theorem not_opensTo_self {precision : Nat} {text : String} :
    ¬(Content.bytes text).OpensTo precision (Triple.all text) := by
  rintro ⟨plain, -, t, s, -, hread⟩
  have hlength : text.length = 4 * max text.length 1 + 1 := (hread .first).length_text
  omega

/-- On some tape an exposed leaf is not shared as text. -/
theorem exists_not_byteShared (h : Exposed schema outer name) (x : Scalar) : ∃ tape, ∀ texts,
    LeafShared schema tape outer name x texts → ¬ByteShared schema x texts := by
  by_contra hall
  push Not at hall
  obtain ⟨texts, ⟨content, drawn, hcontent, hshare⟩, text, rfl, hopens⟩ := hall fun _ => 0
  obtain ⟨texts', ⟨content', drawn', hcontent', hshare'⟩, text', htext, hopens'⟩ := hall fun _ => 1
  obtain rfl := Scalar.text.inj htext
  rw [hcontent, Except.ok.injEq] at hcontent'
  subst hcontent'
  cases hclass : schema.classAt (pathOf outer) name with
  | shared => exact (exposed_iff.mp h).2 hclass
  | passthrough =>
    rw [hclass, ColumnClass.content, Except.ok.injEq] at hcontent
    subst hcontent
    simp only [Content.share, Except.ok.injEq] at hshare
    exact not_opensTo_self (hshare ▸ hopens)
  | numeric =>
    rw [hclass, ColumnClass.content, Except.ok.injEq] at hcontent
    subst hcontent
    cases hencode : FixedPoint.encode schema.precision text with
    | error e => simp [Content.share, hencode] at hshare
    | ok num =>
      obtain ⟨plain, hplain, -⟩ := id hopens
      have hzero := shown_eq_ofWord hencode hplain hshare hopens
      have hone := shown_eq_ofWord hencode hplain hshare' hopens'
      have heq := Bytes.ofWord_injective (hzero.symm.trans hone)
      have hwords : constantWord 0 + constantWord 0 = constantWord 1 + constantWord 1 := by grind
      exact absurd hwords (by decide)

/-! ### The law -/

/-- The error of a record is that of its first bad value. -/
theorem shareRecord_of_firstBad {spot : Spot} {e : FieldError}
    (h : schema.firstBad (schema.spots [] record) = some spot) (he : spot.fault? schema = some e)
    (index : Nat) (source : Source) : ∃ source',
      shareRecord schema index record source = (.error (.field index spot.path e), source') := by
  have hfirst : schema.firstRejection (schema.spots [] record) = some ⟨spot.path, e⟩ := by
    rw [Schema.firstRejection_eq, h, Option.bind_some, Spot.rejection?, he, Option.map_some]
  exact ⟨_, shareRecord_of_rejected hfirst index source⟩

/-- A record in which nothing is bad keeps the law if no leaf of it is exposed. -/
theorem nestedLeaf_of_not_exposed {tape : Nat → UInt8} {views : Triple PartyRecord}
    (h : ∀ outer name x, ⟨outer, name, .leaf x⟩ ∈ Record.leaves [] record →
      ¬Exposed schema outer name)
    (hviews : FieldViews (LeafShared schema tape) [] record views) :
    FieldViews (NestedLeaf schema) [] record views :=
  hviews.imp fun outer name x _ hmem hleaf hnested =>
    byteShared_of_not_exposed hnested (h outer name x hmem) hleaf

/-- A record that is shared breaks the law with any leaf that is exposed. -/
theorem not_nestedLaw_of_exposed (h : schema.firstRejection (schema.spots [] record) = none)
    (hmem : ⟨outer, name, .leaf x⟩ ∈ Record.leaves [] record)
    (hexposed : Exposed schema outer name) : ¬NestedLaw schema record := by
  intro law
  -- The views from the tape on which the leaf is not shared as text.
  obtain ⟨tape, htape⟩ := exists_not_byteShared hexposed x
  obtain ⟨views, hshare, hviews⟩ := shareRecord_of_sound h 0 (.ofTape tape)
  obtain ⟨texts, hleaf, hbytes⟩ := hviews.both (law.byteShared _ _ _ _ hshare) hmem
  exact htape texts hleaf (hbytes hexposed.1)

/-- The law fails where a leaf is exposed in a record that is shared, and where the first bad value
is exposed and no text; in all other records it holds. -/
theorem nestedLaw_iff (schema : Schema) (record : Record) : NestedLaw schema record ↔
    (schema.firstRejection (schema.spots [] record) = none →
      ∀ outer name x, ⟨outer, name, .leaf x⟩ ∈ Record.leaves [] record →
        ¬Exposed schema outer name) ∧
    ∀ outer name x, schema.firstBad (schema.spots [] record) = some ⟨outer, name, .leaf x⟩ →
      Exposed schema outer name → ∃ text, x = .text text := by
  refine ⟨fun law => ⟨fun hsound outer name x hmem hexposed =>
    not_nestedLaw_of_exposed hsound hmem hexposed law, fun outer name x hbad hexposed => ?_⟩,
    fun ⟨hshared, hbad⟩ => ?_⟩
  · by_contra hx
    obtain ⟨e, he⟩ := schema.fault_of_firstBad hbad
    obtain ⟨source', herror⟩ := shareRecord_of_firstBad hbad he 0 (.ofTape fun _ => 0)
    obtain ⟨source'', hlaw⟩ := law.unsupported outer name x hbad hexposed.1
      (fun text htext => hx ⟨text, htext⟩) 0 (.ofTape fun _ => 0)
    rw [hlaw] at herror
    simp only [Prod.mk.injEq, Except.error.injEq, Error.field.injEq] at herror
    rw [← herror.1.2.2] at he
    exact fault?_ne_unsupported (exposed_iff.mp hexposed).2 _ he
  · refine ⟨fun index source views source' hshare => ?_,
      fun outer name x hmem hnested hx index source => ?_,
      fun outer name x hfirst hnested hx index source => ?_⟩
    · exact nestedLeaf_of_not_exposed (hshared (sound_of_shareRecord hshare))
        (shareRecord_views hshare).1
    · cases hfirst : schema.firstRejection (schema.spots [] record) with
      | some r => exact ⟨_, _, shareRecord_of_rejected hfirst index source⟩
      | none =>
        have hfault := fault?_eq_none hfirst (leaves_subset hfirst hmem)
        rw [fault?_of_not_exposed hnested (hshared hfirst outer name x hmem) hx] at hfault
        exact absurd hfault (by simp)
    · have hexposed : ¬Exposed schema outer name := fun hexposed =>
        let ⟨text, htext⟩ := hbad outer name x hfirst hexposed
        hx text htext
      exact shareRecord_of_firstBad hfirst (fault?_of_not_exposed hnested hexposed hx) index source

/-- A date inside a column with an empty name is not hidden from any party. -/
theorem date_not_nestedLaw :
    ¬NestedLaw ⟨Config.default, rfl⟩ [("", .node [("date", .leaf (.text "2024-01-01"))])] := by
  have hmem : (⟨[""], "date", .leaf (.text "2024-01-01")⟩ : Spot) ∈
      Record.leaves [] [("", .node [("date", .leaf (.text "2024-01-01"))])] := by
    simp [Record.leaves, Record.leavesAt]
  exact not_nestedLaw_of_exposed rfl hmem ⟨by simp, by simp, by decide⟩

end TriShare
