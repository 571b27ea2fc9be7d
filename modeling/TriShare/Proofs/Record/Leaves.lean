import TriShare.Proofs.Record.Views
import TriShare.Schema.Basic
/-!
The single values of a record as a list, whatever they are, and where records may be nested in it.
Three views of a record have the leaves of the record in the same order (`FieldViews.sheet`), so
that what is done leaf by leaf to a party's record can be told from the leaves of the source.
-/

namespace TriShare

variable {α β : Type}

/-! ### What values are taken for -/

/-- The class of the columns whose values are taken for this. -/
def Content.columnClass : Content → ColumnClass
  | .numeric _ => .numeric
  | .passthrough _ => .passthrough
  | .bytes _ => .shared

theorem ColumnClass.eq_of_content {c : ColumnClass} {x : Scalar} {content : Content}
    (h : c.content x = .ok content) : c = content.columnClass := by
  cases c <;> cases x <;> simp only [ColumnClass.content, Except.ok.injEq, reduceCtorEq] at h <;>
    rw [← h] <;> rfl

/-! ### Leaves -/

/-- A single value in a column of a record or of the records nested in it. -/
structure Leaf (α : Type) where
  /-- The columns around it, the outermost first. -/
  outer : List String
  name : String
  value : α

namespace Leaf

def map (f : α → β) (leaf : Leaf α) : Leaf β := ⟨leaf.outer, leaf.name, f leaf.value⟩

def path (leaf : Leaf α) : String := joinPath (pathOf leaf.outer) leaf.name

/-- The class of its column. -/
def columnClass (schema : Schema) (leaf : Leaf α) : ColumnClass :=
  schema.classAt (pathOf leaf.outer) leaf.name

end Leaf

mutual

/-- The single values in a column, in order. -/
def Tree.leavesAt (outer : List String) (name : String) : Tree α → List (Leaf α)
  | .leaf a => [⟨outer, name, a⟩]
  | .node fields => Fields.leaves (outer ++ [name]) fields

/-- The single values of a record and of the records nested in it, in order. -/
def Fields.leaves (outer : List String) : List (String × Tree α) → List (Leaf α)
  | [] => []
  | (name, v) :: rest => Tree.leavesAt outer name v ++ Fields.leaves outer rest

end

/-- The single values of a table, record by record. -/
def tableLeaves (table : List (Fields α)) : List (Leaf α) := table.flatMap (Fields.leaves [])

mutual

/-- Whether what stands in a column may stand there: a record only where it is byte-shared. -/
def Tree.WellNested (schema : Schema) (outer : List String) (name : String) : Tree α → Prop
  | .leaf _ => True
  | .node fields =>
    schema.classAt (pathOf outer) name = .shared ∧
      Fields.WellNested schema (outer ++ [name]) fields

/-- All nested records stand in columns that are byte-shared. -/
def Fields.WellNested (schema : Schema) (outer : List String) : List (String × Tree α) → Prop
  | [] => True
  | (name, v) :: rest =>
    Tree.WellNested schema outer name v ∧ Fields.WellNested schema outer rest

end

/-! ### Views -/

/-- A leaf of a record together with the parties' texts in its place. -/
abbrev SharedLeaf := Leaf (Scalar × Triple String)

namespace SharedLeaf

/-- The leaf of the record. -/
def plain (leaf : SharedLeaf) : Leaf Scalar := Leaf.map Prod.fst leaf

/-- The leaf of a party's view. -/
def seenBy (p : Party) (leaf : SharedLeaf) : Leaf String := Leaf.map (fun v => v.2.get p) leaf

end SharedLeaf

/-- The leaves of a record and of its views side by side. -/
structure Sheet (law : LeafLaw) (source : List (Leaf Scalar)) (seen : Party → List (Leaf String))
    (leaves : List SharedLeaf) : Prop where
  plain : source = leaves.map SharedLeaf.plain
  seenBy : ∀ p, seen p = leaves.map (SharedLeaf.seenBy p)
  law : ∀ leaf ∈ leaves, law leaf.outer leaf.name leaf.value.1 leaf.value.2

variable {law : LeafLaw}

theorem Sheet.append {source source' : List (Leaf Scalar)} {seen seen' : Party → List (Leaf String)}
    {leaves leaves' : List SharedLeaf} (h : Sheet law source seen leaves)
    (h' : Sheet law source' seen' leaves') :
    Sheet law (source ++ source') (fun p => seen p ++ seen' p) (leaves ++ leaves') where
  plain := by rw [h.plain, h'.plain, List.map_append]
  seenBy p := by rw [h.seenBy, h'.seenBy, List.map_append]
  law leaf hmem := (List.mem_append.mp hmem).elim (h.law leaf) (h'.law leaf)

mutual

theorem ValueViews.sheet : ∀ {outer : List String} {name : String} {v : Value}
    {views : Triple PartyValue}, ValueViews law outer name v views →
    ∃ leaves, Sheet law (Tree.leavesAt outer name v)
      (fun p => Tree.leavesAt outer name (views.get p)) leaves
  | outer, name, .leaf x, _, h => by
    rw [ValueViews] at h
    obtain ⟨texts, rfl, hlaw⟩ := h
    refine ⟨[⟨outer, name, x, texts⟩], ?_, fun p => ?_, ?_⟩
    · rw [Tree.leavesAt]
      rfl
    · rw [Triple.get_map, Tree.leavesAt]
      rfl
    · simpa using hlaw
  | outer, name, .node fields, _, h => by
    rw [ValueViews] at h
    obtain ⟨inner, rfl, hinner⟩ := h
    obtain ⟨leaves, hsheet⟩ := hinner.sheet
    refine ⟨leaves, ?_, fun p => ?_, hsheet.law⟩
    · rw [Tree.leavesAt, hsheet.plain]
    · rw [Triple.get_map, Tree.leavesAt, hsheet.seenBy]

/-- The views of a record have its leaves, in its order. -/
theorem FieldViews.sheet : ∀ {outer : List String} {fields : List (String × Value)}
    {views : Triple PartyRecord}, FieldViews law outer fields views →
    ∃ leaves, Sheet law (Fields.leaves outer fields) (fun p => Fields.leaves outer (views.get p))
      leaves
  | outer, [], _, h => by
    rw [FieldViews] at h
    subst h
    refine ⟨[], ?_, fun p => ?_, by simp⟩
    · rw [Fields.leaves, List.map_nil]
    · rw [Triple.get_all, Fields.leaves, List.map_nil]
  | outer, (name, v) :: rest, _, h => by
    rw [FieldViews] at h
    obtain ⟨view, inner, rfl, hview, hinner⟩ := h
    obtain ⟨leaves, hsheet⟩ := hview.sheet
    obtain ⟨leaves', hsheet'⟩ := hinner.sheet
    refine ⟨leaves ++ leaves', ?_⟩
    simp only [Triple.get_zipWith, Fields.leaves]
    exact hsheet.append hsheet'

end

mutual

theorem ValueViews.wellNested {schema : Schema} : ∀ {outer : List String} {name : String}
    {v : Value} {views : Triple PartyValue}, ValueViews law outer name v views →
    Tree.WellNested schema outer name v → ∀ p, Tree.WellNested schema outer name (views.get p)
  | _, _, .leaf _, _, h, _, p => by
    rw [ValueViews] at h
    obtain ⟨texts, rfl, -⟩ := h
    rw [Triple.get_map, Tree.WellNested]
    trivial
  | _, _, .node _, _, h, hnested, p => by
    rw [ValueViews] at h
    obtain ⟨inner, rfl, hinner⟩ := h
    rw [Tree.WellNested] at hnested
    rw [Triple.get_map, Tree.WellNested]
    exact ⟨hnested.1, hinner.wellNested hnested.2 p⟩

/-- Records are nested in the views where they are nested in the record. -/
theorem FieldViews.wellNested {schema : Schema} : ∀ {outer : List String}
    {fields : List (String × Value)} {views : Triple PartyRecord},
    FieldViews law outer fields views → Fields.WellNested schema outer fields →
    ∀ p, Fields.WellNested schema outer (views.get p)
  | _, [], _, h, _, p => by
    rw [FieldViews] at h
    rw [h, Triple.get_all, Fields.WellNested]
    trivial
  | _, (_, _) :: _, _, h, hnested, p => by
    rw [FieldViews] at h
    obtain ⟨view, inner, rfl, hview, hinner⟩ := h
    rw [Fields.WellNested] at hnested
    rw [Triple.get_zipWith, Fields.WellNested]
    exact ⟨hview.wellNested hnested.1 p, hinner.wellNested hnested.2 p⟩

end

end TriShare
