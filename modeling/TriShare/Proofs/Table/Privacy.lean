import TriShare.Proofs.Sharing.Masking
import TriShare.Proofs.Table.Opening
/-!
A single party learns nothing of a table but its public shape: the names and the nesting of its
columns, the texts of passthrough columns and how long the hidden texts are. For two tables of one
shape the tapes can be matched one to one such that a party gets the same from both
(`shareTable_private`).
-/

namespace TriShare

/-! ### What is public -/

/-- What every party learns of a value. -/
inductive Disclosed
  | number
  | plain (text : String)
  | hidden (length : Nat)
  deriving DecidableEq, Repr

def Content.disclosed : Content → Disclosed
  | .numeric _ => .number
  | .passthrough text => .plain text
  | .bytes text => .hidden text.length

namespace Schema

variable (schema : Schema)

mutual

/-- What every party learns of what stands in a column. -/
def publicValue (outer : List String) (name : String) : Value → Tree (Option Disclosed)
  | .leaf x =>
    .leaf (((schema.classAt (pathOf outer) name).content x).toOption.map Content.disclosed)
  | .node fields => .node (publicRecord (outer ++ [name]) fields)

/-- What every party learns of a record. -/
def publicRecord (outer : List String) : List (String × Value) → Fields (Option Disclosed)
  | [] => []
  | (name, v) :: rest => (name, publicValue outer name v) :: publicRecord outer rest

end

end Schema

/-! ### Single values -/

variable {schema : Schema} {precision : Nat}

theorem numeric_hides (p : Party) {text text' : String}
    (h : (Content.numeric text).fault? precision = none)
    (h' : (Content.numeric text').fault? precision = none) :
    Hides (8 + 8) (Triple.get · p) ((Content.numeric text).share precision)
      ((Content.numeric text').share precision) := by
  obtain ⟨num, -, hshare⟩ := Content.share_numeric h
  obtain ⟨num', -, hshare'⟩ := Content.share_numeric h'
  rw [funext hshare, funext hshare']
  simp only [Additive.texts_draw]
  exact hides_of_segments (Additive.texts num) (Additive.texts num') _ _
    (Additive.texts_rerandomise num num' p)

theorem bytes_hides (p : Party) {text text' : String} (hlength : text.length = text'.length)
    (h : (Content.bytes text).fault? precision = none)
    (h' : (Content.bytes text').fault? precision = none) :
    Hides (text.length + text.length) (Triple.get · p) ((Content.bytes text).share precision)
      ((Content.bytes text').share precision) := by
  obtain ⟨plain, hencode, hshare⟩ := Content.share_bytes h
  obtain ⟨plain', hencode', hshare'⟩ := Content.share_bytes h'
  have hplain : plain.length = text.length := Latin1.length_encode hencode
  have hplain' : plain'.length = text.length := by rw [Latin1.length_encode hencode', hlength]
  rw [funext hshare, funext hshare', Content.cost, Content.cost, ← hlength, Nat.two_mul]
  by_cases hne : plain = []
  · have hne' : plain' = [] := by
      rw [hne, List.length_nil] at hplain
      exact List.length_eq_zero_iff.mp (by rw [hplain', ← hplain])
    subst hne hne'
    exact ⟨.refl _, fun s s' _ => ⟨_, _, rfl, rfl, rfl⟩⟩
  · have hne' : plain' ≠ [] := by
      intro hnil
      rw [hnil, List.length_nil] at hplain'
      exact hne (List.length_eq_zero_iff.mp (by rw [hplain, ← hplain']))
    have hmask : (Bytes.xor plain plain').length = text.length := by
      rw [Bytes.length_xor, hplain, hplain', min_self]
    simp only [Bytewise.texts_draw hne hplain, Bytewise.texts_draw hne' hplain']
    exact hides_of_segments (Bytewise.texts plain) (Bytewise.texts plain') _ _
      (Bytewise.texts_rerandomise hplain hplain' (Segment.ofFn_ofList _ hmask) p)

/-- Sharing hides what is not disclosed of a value. -/
theorem Content.share_hides (p : Party) {content content' : Content}
    (hpublic : content.disclosed = content'.disclosed) (h : content.fault? precision = none)
    (h' : content'.fault? precision = none) :
    ∃ n, Hides n (Triple.get · p) (content.share precision) (content'.share precision) := by
  cases content with
  | numeric text =>
    cases content' with
    | numeric text' => exact ⟨_, numeric_hides p h h'⟩
    | passthrough text' => cases hpublic
    | bytes text' => cases hpublic
  | passthrough text =>
    cases content' with
    | numeric text' => cases hpublic
    | passthrough text' =>
      obtain rfl := Disclosed.plain.inj hpublic
      exact ⟨0, .refl _, fun s s' _ => ⟨_, _, rfl, rfl, rfl⟩⟩
    | bytes text' => cases hpublic
  | bytes text =>
    cases content' with
    | numeric text' => cases hpublic
    | passthrough text' => cases hpublic
    | bytes text' => exact ⟨_, bytes_hides p (Disclosed.hidden.inj hpublic) h h'⟩

/-! ### Records -/

/-- A leaf that is not bad is shared as something. -/
theorem content_of_sound {outer : List String} {name : String} {x : Scalar}
    (h : schema.firstRejection (schema.spotsAt outer name (.leaf x)) = none) : ∃ content,
      (schema.classAt (pathOf outer) name).content x = .ok content ∧
        content.fault? schema.precision = none := by
  rw [Schema.spotsAt, Schema.firstRejection_cons, Option.or_eq_none_iff, Spot.rejection?,
    Option.map_eq_none_iff] at h
  have hfault := h.1
  simp only [Spot.fault?, Spot.content, Spot.columnClass] at hfault
  cases hcontent : (schema.classAt (pathOf outer) name).content x with
  | error e => simp [hcontent] at hfault
  | ok content =>
    rw [hcontent] at hfault
    exact ⟨content, rfl, hfault⟩

theorem shareScalar_hides (p : Party) {outer : List String} {name : String} {x x' : Scalar}
    (hpublic : schema.publicValue outer name (.leaf x) = schema.publicValue outer name (.leaf x'))
    (h : schema.firstRejection (schema.spotsAt outer name (.leaf x)) = none)
    (h' : schema.firstRejection (schema.spotsAt outer name (.leaf x')) = none) (path : String) :
    ∃ n, Hides n (Triple.get · p)
      (shareScalar schema path (schema.classAt (pathOf outer) name) x)
      (shareScalar schema path (schema.classAt (pathOf outer) name) x') := by
  obtain ⟨content, hcontent, hfault⟩ := content_of_sound h
  obtain ⟨content', hcontent', hfault'⟩ := content_of_sound h'
  rw [Schema.publicValue, Schema.publicValue, hcontent, hcontent'] at hpublic
  have hdisclosed : content.disclosed = content'.disclosed :=
    Option.some.inj (Tree.leaf.inj hpublic)
  obtain ⟨n, hhides⟩ := Content.share_hides p hdisclosed hfault hfault'
  refine ⟨n, hhides.map (Triple.map .leaf) (fun s texts rest hrun => ?_)
    (fun s texts rest hrun => ?_) fun texts texts' heq => ?_⟩
  · rw [shareScalar, hcontent]
    simp only [hrun]
  · rw [shareScalar, hcontent']
    simp only [hrun]
  · rw [Triple.get_map, Triple.get_map, heq]

mutual

theorem shareValue_hides (p : Party) : ∀ {outer : List String} {name : String} {v v' : Value},
    schema.publicValue outer name v = schema.publicValue outer name v' →
    schema.firstRejection (schema.spotsAt outer name v) = none →
    schema.firstRejection (schema.spotsAt outer name v') = none →
    ∃ n, Hides n (Triple.get · p)
      (shareValue schema (joinPath (pathOf outer) name) (schema.classAt (pathOf outer) name) v)
      (shareValue schema (joinPath (pathOf outer) name) (schema.classAt (pathOf outer) name) v')
  | _, _, .leaf x, .leaf x', hpublic, h, h' => by
    obtain ⟨n, hhides⟩ := shareScalar_hides p hpublic h h' _
    refine ⟨n, hhides.map id (fun s _ _ hrun => ?_) (fun s _ _ hrun => ?_) fun _ _ heq => heq⟩
    · rw [shareValue, hrun, id]
    · rw [shareValue, hrun, id]
  | _, _, .leaf _, .node _, hpublic, _, _ => by
    rw [Schema.publicValue, Schema.publicValue] at hpublic
    cases hpublic
  | _, _, .node _, .leaf _, hpublic, _, _ => by
    rw [Schema.publicValue, Schema.publicValue] at hpublic
    cases hpublic
  | outer, name, .node fields, .node fields', hpublic, h, h' => by
    have hclass := schema.classAt_of_sound h
    rw [Schema.publicValue, Schema.publicValue] at hpublic
    rw [Schema.spotsAt, hclass] at h h'
    obtain ⟨n, hhides⟩ := shareFields_hides p (Tree.node.inj hpublic) h h'
    rw [pathOf_concat] at hhides
    rw [hclass]
    have hnode : ∀ {fields source inner next},
        shareFields schema (joinPath (pathOf outer) name) fields source = (.ok inner, next) →
        shareValue schema (joinPath (pathOf outer) name) .shared (.node fields) source =
          (.ok (inner.map .node), next) :=
      fun hinner => shareValue_node.mpr ⟨rfl, _, hinner, rfl⟩
    refine ⟨n, hhides.map (Triple.map .node) (fun _ _ _ => hnode) (fun _ _ _ => hnode)
      fun views views' heq => ?_⟩
    rw [Triple.get_map, Triple.get_map, heq]

theorem shareFields_hides (p : Party) : ∀ {outer : List String}
    {fields fields' : List (String × Value)},
    schema.publicRecord outer fields = schema.publicRecord outer fields' →
    schema.firstRejection (schema.spots outer fields) = none →
    schema.firstRejection (schema.spots outer fields') = none →
    ∃ n, Hides n (Triple.get · p) (shareFields schema (pathOf outer) fields)
      (shareFields schema (pathOf outer) fields')
  | _, [], [], _, _, _ =>
    ⟨0, .refl _, fun s s' _ => ⟨Triple.all [], Triple.all [], by rw [shareFields]; rfl,
      by rw [shareFields]; rfl, rfl⟩⟩
  | _, [], (_, _) :: _, hpublic, _, _ => by
    rw [Schema.publicRecord, Schema.publicRecord] at hpublic
    cases hpublic
  | _, (_, _) :: _, [], hpublic, _, _ => by
    rw [Schema.publicRecord, Schema.publicRecord] at hpublic
    cases hpublic
  | outer, (name, v) :: rest, (name', v') :: rest', hpublic, h, h' => by
    rw [Schema.publicRecord, Schema.publicRecord, List.cons.injEq, Prod.mk.injEq] at hpublic
    obtain ⟨⟨rfl, hvalue⟩, hrest⟩ := hpublic
    rw [Schema.spots, Schema.firstRejection_append, Option.or_eq_none_iff] at h h'
    obtain ⟨m, hfirst⟩ := shareValue_hides p hvalue h.1 h'.1
    obtain ⟨n, hsecond⟩ := shareFields_hides p hrest h.2 h'.2
    refine ⟨m + n, hfirst.seq hsecond (Triple.zipWith fun t ts => (name, t) :: ts)
      (fun _ _ _ _ _ hview hinner => shareFields_cons.mpr ⟨_, _, _, hview, hinner, rfl⟩)
      (fun _ _ _ _ _ hview hinner => shareFields_cons.mpr ⟨_, _, _, hview, hinner, rfl⟩) ?_⟩
    intro view view' views views' hview hviews
    rw [Triple.get_zipWith, Triple.get_zipWith, hview, hviews]

end

/-! ### Tables -/

theorem shareRecord_hides (p : Party) {record record' : Record}
    (hpublic : schema.publicRecord [] record = schema.publicRecord [] record')
    (h : schema.firstRejection (schema.spots [] record) = none)
    (h' : schema.firstRejection (schema.spots [] record') = none) (index : Nat) :
    ∃ n, Hides n (Triple.get · p) (shareRecord schema index record)
      (shareRecord schema index record') := by
  obtain ⟨n, hhides⟩ := shareFields_hides p hpublic h h'
  exact ⟨n, hhides.map id (fun _ _ _ => shareRecord_ok.mpr) (fun _ _ _ => shareRecord_ok.mpr)
    fun _ _ heq => heq⟩

/-- Only records without a bad value are shared. -/
theorem sound_of_shareRecords : ∀ {index : Nat} {records : List Record} {source rest : Source}
    {views : Triple PartyTable}, shareRecords schema index records source = (.ok views, rest) →
    ∀ record ∈ records, schema.firstRejection (schema.spots [] record) = none
  | _, [], _, _, _, _, record, hmem => absurd hmem List.not_mem_nil
  | index, record :: records, source, rest, views, h, record', hmem => by
    obtain ⟨view, views', next, hrecord, hrecords, -⟩ := shareRecords_cons.mp h
    rcases List.mem_cons.mp hmem with rfl | hmem
    · exact sound_of_shareRecord hrecord
    · exact sound_of_shareRecords hrecords record' hmem

theorem shareRecords_hides (p : Party) : ∀ {records records' : List Record} (index : Nat),
    records.map (schema.publicRecord []) = records'.map (schema.publicRecord []) →
    (∀ record ∈ records, schema.firstRejection (schema.spots [] record) = none) →
    (∀ record ∈ records', schema.firstRejection (schema.spots [] record) = none) →
    ∃ n, Hides n (Triple.get · p) (shareRecords schema index records)
      (shareRecords schema index records')
  | [], [], _, _, _, _ => ⟨0, .refl _, fun _ _ _ => ⟨_, _, rfl, rfl, rfl⟩⟩
  | [], _ :: _, _, hpublic, _, _ => by simp at hpublic
  | _ :: _, [], _, hpublic, _, _ => by simp at hpublic
  | record :: records, record' :: records', index, hpublic, h, h' => by
    rw [List.map_cons, List.map_cons, List.cons.injEq] at hpublic
    rw [List.forall_mem_cons] at h h'
    obtain ⟨m, hfirst⟩ := shareRecord_hides p hpublic.1 h.1 h'.1 index
    obtain ⟨n, hsecond⟩ := shareRecords_hides p (index + 1) hpublic.2 h.2 h'.2
    refine ⟨m + n, hfirst.seq hsecond (Triple.zipWith List.cons)
      (fun _ _ _ _ _ h h' => shareRecords_cons.mpr ⟨_, _, _, h, h', rfl⟩)
      (fun _ _ _ _ _ h h' => shareRecords_cons.mpr ⟨_, _, _, h, h', rfl⟩) ?_⟩
    intro view view' views views' hview hviews
    rw [Triple.get_zipWith, Triple.get_zipWith, hview, hviews]

/-- Two tables that are shared and have the same public shape draw the same number of bytes, and a
party cannot tell them apart: the tapes of that length are matched one to one such that it gets the
same table from either. -/
theorem shareTable_private (p : Party) {table table' : List Record}
    (hpublic : table.map (schema.publicRecord []) = table'.map (schema.publicRecord []))
    {source source' rest rest' : Source} {views views' : Triple PartyTable}
    (h : shareTable schema table source = (.ok views, rest))
    (h' : shareTable schema table' source' = (.ok views', rest')) :
    ∃ (drawn : Nat) (f : Segment drawn ≃ Segment drawn), ∀ tape tape' : Nat → UInt8,
      (fun i : Fin drawn => tape' i) = f (fun i : Fin drawn => tape i) → ∃ seen seen',
        shareTable schema table (.ofTape tape) = (.ok seen, ⟨tape, drawn⟩) ∧
        shareTable schema table' (.ofTape tape') = (.ok seen', ⟨tape', drawn⟩) ∧
        seen.get p = seen'.get p := by
  obtain ⟨n, f, hf⟩ :=
    shareRecords_hides p 0 hpublic (sound_of_shareRecords h) (sound_of_shareRecords h')
  have hsegment : ∀ tape : Nat → UInt8,
      (Source.ofTape tape).segment n = fun i : Fin n => tape i := by
    intro tape
    funext i
    rw [Source.segment, Source.ofTape, Nat.zero_add]
  have hskip : ∀ tape : Nat → UInt8, (Source.ofTape tape).skip n = ⟨tape, n⟩ := by
    intro tape
    rw [Source.skip, Source.ofTape, Nat.zero_add]
  refine ⟨n, f, fun tape tape' htape => ?_⟩
  rw [← hsegment, ← hsegment] at htape
  obtain ⟨seen, seen', hseen, hseen', heq⟩ := hf (.ofTape tape) (.ofTape tape') htape
  rw [hskip] at hseen hseen'
  exact ⟨seen, seen', hseen, hseen', heq⟩

/-- No party can tell two codes and two prices from each other. -/
theorem shareTable_private_receipts :
    let table := receipts "ab" (.number (.integer (-3)))
    let table' := receipts "xy" (.text "7.5")
    let views : Triple PartyTable :=
      ⟨receiptView "6e74 0108" "7980878e959c97ab 4e474039322b241d",
        receiptView "0e1e 0f16" "d4c6b8aa9c8e8072 867f78716a635c55",
        receiptView "606a 6f7c" "b1b8bfc6cdd4cfe3 2b3947556371738e"⟩
    let views' : Triple PartyTable :=
      ⟨receiptView "776f 0108" "7980878e959cc1ab 4e474039322b241d",
        receiptView "0e1e 0f16" "d4c6b8aa9c8e8072 867f78716a635c55",
        receiptView "7971 7667" "b1b8bfc6cdd4f9e3 2b39475563719d8e"⟩
    table.map (receiptSchema.publicRecord []) = table'.map (receiptSchema.publicRecord []) ∧
    shareTable receiptSchema table (.ofTape receiptTape) = (.ok views, ⟨receiptTape, 20⟩) ∧
    shareTable receiptSchema table' (.ofTape receiptTape) = (.ok views', ⟨receiptTape, 20⟩) ∧
    ∀ p : Party, ∃ (drawn : Nat) (f : Segment drawn ≃ Segment drawn), ∀ tape tape' : Nat → UInt8,
      (fun i : Fin drawn => tape' i) = f (fun i : Fin drawn => tape i) → ∃ seen seen',
        shareTable receiptSchema table (.ofTape tape) = (.ok seen, ⟨tape, drawn⟩) ∧
        shareTable receiptSchema table' (.ofTape tape') = (.ok seen', ⟨tape', drawn⟩) ∧
        seen.get p = seen'.get p := by
  intro table table' views views'
  have hpublic : table.map (receiptSchema.publicRecord []) =
    table'.map (receiptSchema.publicRecord []) := rfl
  have h : shareTable receiptSchema table (.ofTape receiptTape) =
    (.ok views, ⟨receiptTape, 20⟩) := rfl
  have h' : shareTable receiptSchema table' (.ofTape receiptTape) =
    (.ok views', ⟨receiptTape, 20⟩) := rfl
  exact ⟨hpublic, h, h', fun p => shareTable_private p hpublic h h'⟩

end TriShare
