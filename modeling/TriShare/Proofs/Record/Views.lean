import Mathlib.Data.List.Induction
import TriShare.Proofs.Party.Triple
import TriShare.Record.Basic
/-!
Three views of a record, one for each party: trees with the names and the nesting of the record,
and with texts where the record has single values. What the texts are is left to a law for leaves.
-/

namespace TriShare

/-! ### Paths -/

/-- The path to the inside of columns nested in one another, the outermost first. -/
def pathOf (outer : List String) : String := outer.foldl joinPath ""

theorem pathOf_concat (outer : List String) (name : String) :
    pathOf (outer ++ [name]) = joinPath (pathOf outer) name := by
  rw [pathOf, List.foldl_append, List.foldl_cons, List.foldl_nil, pathOf]

theorem joinPath_eq_empty {path name : String} :
    joinPath path name = "" ↔ path = "" ∧ name = "" := by
  rw [joinPath]
  split
  · next h => exact ⟨fun hname => ⟨h, hname⟩, And.right⟩
  · next h => simp [h]

/-- A path is empty only where all the names on it are. -/
theorem pathOf_eq_empty {outer : List String} :
    pathOf outer = "" ↔ ∀ name ∈ outer, name = "" := by
  induction outer using List.reverseRecOn with
  | nil => exact ⟨fun _ name h => absurd h List.not_mem_nil, fun _ => rfl⟩
  | append_singleton outer name ih =>
    rw [pathOf_concat, joinPath_eq_empty, ih]
    simp only [List.mem_append, List.mem_singleton, or_imp, forall_and, forall_eq]

/-! ### Leaves -/

/-- Something that stands in a column of a record or of the records nested in it. -/
structure Spot where
  /-- The columns around it, the outermost first. -/
  outer : List String
  name : String
  value : Value

namespace Record

mutual

/-- The single values in a column, in order. -/
def leavesAt (outer : List String) (name : String) : Value → List Spot
  | .leaf x => [⟨outer, name, .leaf x⟩]
  | .node fields => leaves (outer ++ [name]) fields

/-- The single values of a record and of the records nested in it, in order. -/
def leaves (outer : List String) : List (String × Value) → List Spot
  | [] => []
  | (name, v) :: rest => leavesAt outer name v ++ leaves outer rest

end

end Record

/-! ### Views -/

/-- What is to hold of a leaf and the parties' texts in its place, from the columns around it, the
outermost first, and its own column. -/
abbrev LeafLaw := List String → String → Scalar → Triple String → Prop

mutual

/-- The parties' views of what stands in a column. -/
def ValueViews (law : LeafLaw) (outer : List String) (name : String) :
    Value → Triple PartyValue → Prop
  | .leaf x, views => ∃ texts, views = texts.map .leaf ∧ law outer name x texts
  | .node fields, views =>
    ∃ inner, views = inner.map .node ∧ FieldViews law (outer ++ [name]) fields inner

/-- The parties' views of a record: the same columns in the same order. -/
def FieldViews (law : LeafLaw) (outer : List String) :
    List (String × Value) → Triple PartyRecord → Prop
  | [], views => views = Triple.all []
  | (name, v) :: rest, views => ∃ view inner,
    views = Triple.zipWith (fun t ts => (name, t) :: ts) view inner ∧
      ValueViews law outer name v view ∧ FieldViews law outer rest inner

end

/-- Views with a first column determine those of the column and those of the rest. -/
theorem column_injective {name : String} {view view' : Triple PartyValue}
    {inner inner' : Triple PartyRecord}
    (h : Triple.zipWith (fun t ts => (name, t) :: ts) view inner =
      Triple.zipWith (fun t ts => (name, t) :: ts) view' inner') :
    view = view' ∧ inner = inner' := by
  obtain ⟨_, _, _⟩ := view
  obtain ⟨_, _, _⟩ := view'
  obtain ⟨_, _, _⟩ := inner
  obtain ⟨_, _, _⟩ := inner'
  simp_all [Triple.zipWith]

variable {law law' : LeafLaw}

mutual

theorem ValueViews.imp : ∀ {outer : List String} {name : String} {v : Value}
    {views : Triple PartyValue},
    (∀ o n x texts, ⟨o, n, .leaf x⟩ ∈ Record.leavesAt outer name v → law o n x texts →
      law' o n x texts) →
    ValueViews law outer name v views → ValueViews law' outer name v views
  | outer, name, .leaf x, _, h, hviews => by
    rw [ValueViews] at hviews ⊢
    obtain ⟨texts, rfl, hlaw⟩ := hviews
    refine ⟨texts, rfl, h outer name x texts ?_ hlaw⟩
    rw [Record.leavesAt]
    exact List.mem_cons_self
  | _, _, .node _, _, h, hviews => by
    rw [ValueViews] at hviews ⊢
    rw [Record.leavesAt] at h
    obtain ⟨inner, rfl, hinner⟩ := hviews
    exact ⟨inner, rfl, hinner.imp h⟩

/-- One law may be put for another that follows from it at the leaves of the record. -/
theorem FieldViews.imp : ∀ {outer : List String} {fields : List (String × Value)}
    {views : Triple PartyRecord},
    (∀ o n x texts, ⟨o, n, .leaf x⟩ ∈ Record.leaves outer fields → law o n x texts →
      law' o n x texts) →
    FieldViews law outer fields views → FieldViews law' outer fields views
  | _, [], _, _, hviews => by
    rw [FieldViews] at hviews ⊢
    exact hviews
  | _, (_, _) :: _, _, h, hviews => by
    rw [FieldViews] at hviews ⊢
    rw [Record.leaves] at h
    obtain ⟨view, inner, rfl, hview, hinner⟩ := hviews
    refine ⟨view, inner, rfl, hview.imp ?_, hinner.imp ?_⟩
    · exact fun o n x texts hmem => h o n x texts (List.mem_append_left _ hmem)
    · exact fun o n x texts hmem => h o n x texts (List.mem_append_right _ hmem)

end

mutual

theorem ValueViews.both : ∀ {outer : List String} {name : String} {v : Value}
    {views : Triple PartyValue}, ValueViews law outer name v views →
    ValueViews law' outer name v views → ∀ {o : List String} {n : String} {x : Scalar},
    ⟨o, n, .leaf x⟩ ∈ Record.leavesAt outer name v → ∃ texts, law o n x texts ∧ law' o n x texts
  | outer, name, .leaf x, _, hviews, hviews', o, n, y, hmem => by
    rw [ValueViews] at hviews hviews'
    rw [Record.leavesAt, List.mem_singleton, Spot.mk.injEq, Tree.leaf.injEq] at hmem
    obtain ⟨rfl, rfl, rfl⟩ := hmem
    obtain ⟨texts, rfl, hlaw⟩ := hviews
    obtain ⟨texts', heq, hlaw'⟩ := hviews'
    obtain rfl := Triple.map_injective (fun _ _ => Tree.leaf.inj) heq
    exact ⟨texts, hlaw, hlaw'⟩
  | _, _, .node _, _, hviews, hviews', _, _, _, hmem => by
    rw [ValueViews] at hviews hviews'
    rw [Record.leavesAt] at hmem
    obtain ⟨inner, rfl, hinner⟩ := hviews
    obtain ⟨inner', heq, hinner'⟩ := hviews'
    obtain rfl := Triple.map_injective (fun _ _ => Tree.node.inj) heq
    exact hinner.both hinner' hmem

/-- Two laws of the same views hold of the same texts. -/
theorem FieldViews.both : ∀ {outer : List String} {fields : List (String × Value)}
    {views : Triple PartyRecord}, FieldViews law outer fields views →
    FieldViews law' outer fields views → ∀ {o : List String} {n : String} {x : Scalar},
    ⟨o, n, .leaf x⟩ ∈ Record.leaves outer fields → ∃ texts, law o n x texts ∧ law' o n x texts
  | _, [], _, _, _, _, _, _, hmem => by
    rw [Record.leaves] at hmem
    exact absurd hmem List.not_mem_nil
  | _, (_, _) :: _, _, hviews, hviews', _, _, _, hmem => by
    rw [FieldViews] at hviews hviews'
    rw [Record.leaves] at hmem
    obtain ⟨view, inner, rfl, hview, hinner⟩ := hviews
    obtain ⟨view', inner', heq, hview', hinner'⟩ := hviews'
    obtain ⟨rfl, rfl⟩ := column_injective heq
    rcases List.mem_append.mp hmem with hmem | hmem
    · exact hview.both hview' hmem
    · exact hinner.both hinner' hmem

end

end TriShare
