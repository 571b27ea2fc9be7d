import TriShare.Proofs.Record.Views
import TriShare.Proofs.Table.Content
/-!
What sharing does to a record, said by the list of its single values in the order in which they are
shared. The first of them that is bad ends the sharing with its own error, and nothing but what
stands before it has drawn from the source; where none is bad, the views have the shape of the
record and each leaf holds the texts of its value (`shareFields_outcome`).
-/

namespace TriShare

/-! ### The values of a record -/

namespace Spot

def path (spot : Spot) : String := joinPath (pathOf spot.outer) spot.name

variable (schema : Schema)

/-- The class of its column. -/
def columnClass (spot : Spot) : ColumnClass := schema.classAt (pathOf spot.outer) spot.name

/-- What it is shared as. -/
def content (spot : Spot) : Except FieldError Content :=
  match spot.value with
  | .leaf x => (spot.columnClass schema).content x
  | .node _ => .error ((spot.columnClass schema).refuse .record)

/-- What is wrong with it. -/
def fault? (spot : Spot) : Option FieldError :=
  match spot.content schema with
  | .error e => some e
  | .ok content => content.fault? schema.precision

def rejection? (spot : Spot) : Option Rejection := (spot.fault? schema).map (⟨spot.path, ·⟩)

/-- How many bytes are drawn for it. -/
def cost (spot : Spot) : Nat :=
  match spot.content schema with
  | .error _ => 0
  | .ok content => content.cost

end Spot

namespace Schema

variable (schema : Schema)

mutual

/-- The values that are shared in a column, in order. A record is one of them only where its column
cannot hold one. -/
def spotsAt (outer : List String) (name : String) : Value → List Spot
  | .leaf x => [⟨outer, name, .leaf x⟩]
  | .node fields =>
    match schema.classAt (pathOf outer) name with
    | .shared => spots (outer ++ [name]) fields
    | _ => [⟨outer, name, .node fields⟩]

/-- The values that are shared of a record, in order. -/
def spots (outer : List String) : List (String × Value) → List Spot
  | [] => []
  | (name, v) :: rest => spotsAt outer name v ++ spots outer rest

end

/-- The first bad one among values. -/
def firstBad (list : List Spot) : Option Spot := list.find? fun spot => (spot.fault? schema).isSome

/-- The first error among values. -/
def firstRejection (list : List Spot) : Option Rejection := list.findSome? (Spot.rejection? schema)

/-- How many bytes are drawn for values, up to the first that is bad. -/
def drawnFor : List Spot → Nat
  | [] => 0
  | spot :: rest => if (spot.rejection? schema).isSome then 0 else spot.cost schema + drawnFor rest

theorem firstRejection_cons (spot : Spot) (rest : List Spot) :
    schema.firstRejection (spot :: rest) =
      (spot.rejection? schema).or (schema.firstRejection rest) := by
  rw [firstRejection, List.findSome?_cons, firstRejection]
  cases spot.rejection? schema <;> rfl

theorem firstRejection_append (list rest : List Spot) : schema.firstRejection (list ++ rest) =
    (schema.firstRejection list).or (schema.firstRejection rest) := List.findSome?_append

theorem fault_of_firstBad {list : List Spot} {spot : Spot} (h : schema.firstBad list = some spot) :
    ∃ e, spot.fault? schema = some e := by
  rw [firstBad] at h
  have hbad := List.find?_some h
  exact Option.isSome_iff_exists.mp hbad

/-- The first error is that of the first bad value. -/
theorem firstRejection_eq (list : List Spot) :
    schema.firstRejection list = (schema.firstBad list).bind (Spot.rejection? schema) := by
  induction list with
  | nil => rfl
  | cons spot list ih =>
    rw [firstRejection_cons, ih, firstBad, firstBad, List.find?_cons, Spot.rejection?]
    cases h : spot.fault? schema with
    | none => rfl
    | some e => simp [Spot.rejection?, h]

/-- A record without a bad value stands in a byte-shared column. -/
theorem classAt_of_sound {outer : List String} {name : String} {fields : List (String × Value)}
    (h : schema.firstRejection (schema.spotsAt outer name (.node fields)) = none) :
    schema.classAt (pathOf outer) name = .shared := by
  cases hclass : schema.classAt (pathOf outer) name with
  | numeric =>
    rw [spotsAt, hclass, firstRejection_cons, Option.or_eq_none_iff] at h
    cases h.1
  | passthrough =>
    rw [spotsAt, hclass, firstRejection_cons, Option.or_eq_none_iff] at h
    cases h.1
  | shared => rfl

/-- Nothing is drawn after a bad value. -/
theorem drawnFor_append_of_some {list : List Spot} {r : Rejection}
    (h : schema.firstRejection list = some r) (rest : List Spot) :
    schema.drawnFor (list ++ rest) = schema.drawnFor list := by
  induction list with
  | nil => simp [firstRejection] at h
  | cons spot list ih =>
    rw [firstRejection_cons] at h
    rw [List.cons_append, drawnFor, drawnFor]
    cases hspot : spot.rejection? schema with
    | none =>
      rw [hspot, Option.none_or] at h
      rw [ih h]
    | some r => rfl

theorem drawnFor_append_of_none {list : List Spot} (h : schema.firstRejection list = none)
    (rest : List Spot) :
    schema.drawnFor (list ++ rest) = schema.drawnFor list + schema.drawnFor rest := by
  induction list with
  | nil => rw [List.nil_append, drawnFor, Nat.zero_add]
  | cons spot list ih =>
    rw [firstRejection_cons, Option.or_eq_none_iff] at h
    rw [List.cons_append, drawnFor, drawnFor, h.1, ih h.2, Option.isSome_none, if_neg (by decide),
      if_neg (by decide), Nat.add_assoc]

/-- What comes of sharing values from a source: the first error, or something good. -/
inductive Outcome {α : Type} (list : List Spot) (source : Source) (Good : α → Prop) :
    Except Rejection α × Source → Prop
  | rejected {r : Rejection} (h : schema.firstRejection list = some r) :
    Outcome list source Good (.error r, source.skip (schema.drawnFor list))
  | shared {a : α} (h : schema.firstRejection list = none) (good : Good a) :
    Outcome list source Good (.ok a, source.skip (schema.drawnFor list))

variable {schema} {α : Type} {list : List Spot} {source : Source} {Good : α → Prop}
  {result : Except Rejection α × Source}

theorem Outcome.eq_error (h : schema.Outcome list source Good result) {r : Rejection}
    (hr : schema.firstRejection list = some r) :
    result = (.error r, source.skip (schema.drawnFor list)) := by
  cases h with
  | rejected hfirst =>
    rw [hr, Option.some.injEq] at hfirst
    rw [hfirst]
  | shared hfirst => simp [hr] at hfirst

theorem Outcome.eq_ok (h : schema.Outcome list source Good result)
    (hnone : schema.firstRejection list = none) :
    ∃ a, result = (.ok a, source.skip (schema.drawnFor list)) ∧ Good a := by
  cases h with
  | rejected hfirst => simp [hnone] at hfirst
  | shared _ good => exact ⟨_, rfl, good⟩

end Schema

variable {schema : Schema}

/-! ### Steps that succeed -/

section Steps

variable {path name : String} {fields rest : List (String × Value)} {v : Value}
  {source source₁ source₂ : Source} {record : Record} {records : List Record} {index : Nat}

theorem shareScalar_ok {c : ColumnClass} {x : Scalar} {views : Triple PartyValue} :
    shareScalar schema path c x source = (.ok views, source₁) ↔ ∃ content texts,
      c.content x = .ok content ∧ content.share schema.precision source = (.ok texts, source₁) ∧
        views = texts.map .leaf := by
  rw [shareScalar]
  constructor
  · intro h
    split at h
    · simp at h
    · next content hcontent =>
      split at h
      · simp at h
      · next texts source₁ hshare =>
        rw [Prod.mk.injEq, Except.ok.injEq] at h
        obtain ⟨rfl, rfl⟩ := h
        exact ⟨content, texts, hcontent, hshare, rfl⟩
  · rintro ⟨content, texts, hcontent, hshare, rfl⟩
    simp only [hcontent, hshare]

theorem shareValue_node {c : ColumnClass} {views : Triple PartyValue} :
    shareValue schema path c (.node fields) source = (.ok views, source₁) ↔ c = .shared ∧
      ∃ inner, shareFields schema path fields source = (.ok inner, source₁) ∧
        views = inner.map .node := by
  cases c with
  | numeric => simp [shareValue]
  | passthrough => simp [shareValue]
  | shared =>
    rw [shareValue]
    constructor
    · intro h
      split at h
      · simp at h
      · next inner source₁ hinner =>
        rw [Prod.mk.injEq, Except.ok.injEq] at h
        obtain ⟨rfl, rfl⟩ := h
        exact ⟨rfl, inner, hinner, rfl⟩
    · rintro ⟨-, inner, hinner, rfl⟩
      simp only [hinner]

theorem shareFields_cons {views : Triple PartyRecord} :
    shareFields schema path ((name, v) :: rest) source = (.ok views, source₂) ↔
      ∃ view inner source₁,
        shareValue schema (joinPath path name) (schema.classAt path name) v source =
          (.ok view, source₁) ∧
        shareFields schema path rest source₁ = (.ok inner, source₂) ∧
        views = Triple.zipWith (fun t ts => (name, t) :: ts) view inner := by
  rw [shareFields]
  constructor
  · intro h
    split at h
    · simp at h
    · next view source₁ hview =>
      split at h
      · simp at h
      · next inner source₂ hinner =>
        rw [Prod.mk.injEq, Except.ok.injEq] at h
        obtain ⟨rfl, rfl⟩ := h
        exact ⟨view, inner, source₁, hview, hinner, rfl⟩
  · rintro ⟨view, inner, source₁, hview, hinner, rfl⟩
    simp only [hview, hinner]

theorem shareRecord_ok {views : Triple PartyRecord} :
    shareRecord schema index record source = (.ok views, source₁) ↔
      shareFields schema (pathOf []) record source = (.ok views, source₁) := by
  have hpath : pathOf [] = "" := rfl
  rw [shareRecord, hpath]
  cases shareFields schema "" record source with
  | mk result next => cases result <;> simp

theorem shareRecords_cons {views : Triple PartyTable} :
    shareRecords schema index (record :: records) source = (.ok views, source₂) ↔
      ∃ view views' source₁, shareRecord schema index record source = (.ok view, source₁) ∧
        shareRecords schema (index + 1) records source₁ = (.ok views', source₂) ∧
        views = Triple.zipWith List.cons view views' := by
  rw [shareRecords]
  constructor
  · intro h
    split at h
    · simp at h
    · next view source₁ hrecord =>
      split at h
      · simp at h
      · next views' source₂ hrecords =>
        rw [Prod.mk.injEq, Except.ok.injEq] at h
        obtain ⟨rfl, rfl⟩ := h
        exact ⟨view, views', source₁, hrecord, hrecords, rfl⟩
  · rintro ⟨view, views', source₁, hrecord, hrecords, rfl⟩
    rw [hrecord]
    simp only [hrecords]

end Steps

/-! ### The recursion -/

/-- The texts of a leaf are those of its content, from some place of the tape. -/
def LeafShared (schema : Schema) (tape : Nat → UInt8) : LeafLaw := fun outer name x texts =>
  ∃ content drawn, (schema.classAt (pathOf outer) name).content x = .ok content ∧
    (content.share schema.precision ⟨tape, drawn⟩).1 = .ok texts

variable (schema)

/-- A bad value draws nothing. -/
theorem outcome_of_fault {α : Type} {Good : α → Prop} (spot : Spot) {e : FieldError}
    (h : spot.fault? schema = some e) (source : Source) :
    schema.Outcome [spot] source Good (.error ⟨spot.path, e⟩, source) := by
  have hrejection : spot.rejection? schema = some ⟨spot.path, e⟩ := by
    rw [Spot.rejection?, h, Option.map_some]
  have hfirst : schema.firstRejection [spot] = some ⟨spot.path, e⟩ := by
    rw [Schema.firstRejection_cons, hrejection]
    rfl
  have hdrawn : schema.drawnFor [spot] = 0 := by
    rw [Schema.drawnFor, hrejection, Option.isSome_some, if_pos rfl]
  have houtcome : schema.Outcome [spot] source Good _ := .rejected hfirst
  rwa [hdrawn] at houtcome

theorem outcome_of_sound {α : Type} {Good : α → Prop} (spot : Spot) {a : α}
    (h : spot.fault? schema = none) (good : Good a) (source : Source) :
    schema.Outcome [spot] source Good (.ok a, source.skip (spot.cost schema)) := by
  have hrejection : spot.rejection? schema = none := by
    rw [Spot.rejection?, h, Option.map_none]
  have hfirst : schema.firstRejection [spot] = none := by
    rw [Schema.firstRejection_cons, hrejection]
    rfl
  have hdrawn : schema.drawnFor [spot] = spot.cost schema := by
    rw [Schema.drawnFor, hrejection]
    rfl
  have houtcome : schema.Outcome [spot] source Good _ := .shared hfirst good
  rwa [hdrawn] at houtcome

theorem shareScalar_outcome (outer : List String) (name : String) (x : Scalar) (source : Source) :
    schema.Outcome [⟨outer, name, .leaf x⟩] source
      (ValueViews (LeafShared schema source.tape) outer name (.leaf x))
      (shareScalar schema (joinPath (pathOf outer) name) (schema.classAt (pathOf outer) name) x
        source) := by
  have hspot : (⟨outer, name, .leaf x⟩ : Spot).content schema =
    (schema.classAt (pathOf outer) name).content x := rfl
  rw [shareScalar]
  cases hcontent : (schema.classAt (pathOf outer) name).content x with
  | error e =>
    refine outcome_of_fault schema ⟨outer, name, .leaf x⟩ ?_ source
    rw [Spot.fault?, hspot, hcontent]
  | ok content =>
    cases hfault : content.fault? schema.precision with
    | some e =>
      simp only [Content.share_of_fault hfault]
      refine outcome_of_fault schema ⟨outer, name, .leaf x⟩ ?_ source
      rw [Spot.fault?, hspot, hcontent]
      exact hfault
    | none =>
      obtain ⟨texts, hshare, -⟩ := Content.share_of_sound hfault source
      have hcost : (⟨outer, name, .leaf x⟩ : Spot).cost schema = content.cost := by
        rw [Spot.cost, hspot, hcontent]
      simp only [hshare]
      rw [← hcost]
      refine outcome_of_sound schema ⟨outer, name, .leaf x⟩ ?_ ?_ source
      · rw [Spot.fault?, hspot, hcontent]
        exact hfault
      · rw [ValueViews]
        exact ⟨texts, rfl, content, source.drawn, hcontent, by rw [hshare]⟩

mutual

/-- What comes of sharing what stands in a column. -/
theorem shareValue_outcome (outer : List String) (name : String) :
    ∀ (v : Value) (source : Source), schema.Outcome (schema.spotsAt outer name v) source
      (ValueViews (LeafShared schema source.tape) outer name v)
      (shareValue schema (joinPath (pathOf outer) name) (schema.classAt (pathOf outer) name) v
        source)
  | .leaf x, source => by
    rw [Schema.spotsAt, shareValue]
    exact shareScalar_outcome schema outer name x source
  | .node fields, source => by
    rw [Schema.spotsAt]
    cases hclass : schema.classAt (pathOf outer) name with
    | numeric =>
      refine outcome_of_fault schema ⟨outer, name, .node fields⟩ ?_ source
      rw [Spot.fault?, Spot.content, Spot.columnClass, hclass]
    | passthrough =>
      refine outcome_of_fault schema ⟨outer, name, .node fields⟩ ?_ source
      rw [Spot.fault?, Spot.content, Spot.columnClass, hclass]
    | shared =>
      have hfields := shareFields_outcome (outer ++ [name]) fields source
      rw [pathOf_concat] at hfields
      rw [shareValue]
      generalize shareFields schema _ fields source = result at hfields ⊢
      cases hfields with
      | rejected h => exact .rejected h
      | shared h good =>
        refine .shared h ?_
        rw [ValueViews]
        exact ⟨_, rfl, good⟩

/-- What comes of sharing a record. -/
theorem shareFields_outcome (outer : List String) :
    ∀ (fields : List (String × Value)) (source : Source),
      schema.Outcome (schema.spots outer fields) source
        (FieldViews (LeafShared schema source.tape) outer fields)
        (shareFields schema (pathOf outer) fields source)
  | [], source => by
    rw [Schema.spots, shareFields]
    refine .shared rfl ?_
    rw [FieldViews]
  | (name, v) :: rest, source => by
    have hvalue := shareValue_outcome outer name v source
    rw [Schema.spots, shareFields]
    generalize shareValue schema _ _ v source = result at hvalue ⊢
    cases hvalue with
    | rejected h =>
      rw [← schema.drawnFor_append_of_some h (schema.spots outer rest)]
      refine .rejected ?_
      rw [schema.firstRejection_append, h]
      rfl
    | shared h good =>
      have hrest := shareFields_outcome outer rest
        (source.skip (schema.drawnFor (schema.spotsAt outer name v)))
      have hfirst : schema.firstRejection (schema.spotsAt outer name v ++ schema.spots outer rest) =
          schema.firstRejection (schema.spots outer rest) := by
        rw [schema.firstRejection_append, h]
        rfl
      simp only
      generalize shareFields schema _ rest _ = result at hrest ⊢
      cases hrest with
      | rejected hr =>
        rw [Source.skip_skip, ← schema.drawnFor_append_of_none h]
        exact .rejected (hfirst.trans hr)
      | shared hr goodRest =>
        simp only
        rw [Source.skip_skip, ← schema.drawnFor_append_of_none h]
        refine .shared (hfirst.trans hr) ?_
        rw [FieldViews]
        exact ⟨_, _, rfl, good, goodRest⟩

end

/-! ### Records -/

variable {schema} {record : Record}

/-- The first bad value of a record is what its error is about. -/
theorem shareRecord_of_rejected {r : Rejection}
    (h : schema.firstRejection (schema.spots [] record) = some r) (index : Nat) (source : Source) :
    shareRecord schema index record source =
      (.error (r.inRecord index), source.skip (schema.drawnFor (schema.spots [] record))) := by
  have hfields : shareFields schema "" record source = _ :=
    (shareFields_outcome schema [] record source).eq_error h
  rw [shareRecord, hfields]

/-- A record without a bad value is shared from every source. -/
theorem shareRecord_of_sound (h : schema.firstRejection (schema.spots [] record) = none)
    (index : Nat) (source : Source) : ∃ views,
      shareRecord schema index record source =
        (.ok views, source.skip (schema.drawnFor (schema.spots [] record))) ∧
      FieldViews (LeafShared schema source.tape) [] record views := by
  obtain ⟨views, hfields, hviews⟩ := (shareFields_outcome schema [] record source).eq_ok h
  exact ⟨views, shareRecord_ok.mpr hfields, hviews⟩

/-- Only a record without a bad value is shared. -/
theorem sound_of_shareRecord {index : Nat} {source source' : Source} {views : Triple PartyRecord}
    (h : shareRecord schema index record source = (.ok views, source')) :
    schema.firstRejection (schema.spots [] record) = none := by
  cases hfirst : schema.firstRejection (schema.spots [] record) with
  | none => rfl
  | some r => simp [shareRecord_of_rejected hfirst] at h

end TriShare
