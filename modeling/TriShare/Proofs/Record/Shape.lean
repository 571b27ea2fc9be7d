import TriShare.Proofs.Record.Leaves
/-!
The shape of a record: its names and its nesting, without its values. How deep a record is nested,
which columns its leaves stand in and whether its columns are in order are questions about its shape
alone. The views of a record have its shape (`FieldViews.shape_eq`).
-/

namespace TriShare

variable {α β : Type}

mutual

/-- What stands in a column, without the values. -/
def Tree.shape : Tree α → Tree Unit
  | .leaf _ => .leaf ()
  | .node fields => .node (Fields.shape fields)

/-- The names and the nesting of a record. -/
def Fields.shape : List (String × Tree α) → Fields Unit
  | [] => []
  | (name, v) :: rest => (name, Tree.shape v) :: Fields.shape rest

end

/-! ### Order -/

mutual

/-- Whether the columns of all records in a column are in the order of their names. -/
def Tree.Ordered : Tree α → Prop
  | .leaf _ => True
  | .node fields => Fields.Ordered fields

/-- Whether the names of a record strictly increase, and those of the records nested in it. -/
def Fields.Ordered : List (String × Tree α) → Prop
  | [] => True
  | (name, v) :: rest => (∀ e ∈ rest, name < e.1) ∧ Tree.Ordered v ∧ Fields.Ordered rest

end

theorem Fields.Ordered.entries {fields : List (String × Tree α)} (h : Fields.Ordered fields) :
    Entries.Ordered fields := by
  induction fields with
  | nil => exact List.Pairwise.nil
  | cons e rest ih =>
    obtain ⟨name, v⟩ := e
    rw [Fields.Ordered] at h
    exact List.pairwise_cons.mpr ⟨h.1, ih h.2.2⟩

/-- The columns that lead to a leaf, its own last. -/
def Leaf.columns (leaf : Leaf α) : List String := leaf.outer ++ [leaf.name]

mutual

theorem Tree.columns_of_mem : ∀ {outer : List String} {name : String} {v : Tree α} {leaf : Leaf α},
    leaf ∈ Tree.leavesAt outer name v → ∃ inner, leaf.columns = outer ++ name :: inner
  | outer, name, .leaf a, leaf, h => by
    rw [Tree.leavesAt, List.mem_singleton] at h
    subst h
    exact ⟨[], rfl⟩
  | outer, name, .node fields, leaf, h => by
    rw [Tree.leavesAt] at h
    obtain ⟨e, -, inner, hcolumns⟩ := Fields.columns_of_mem h
    refine ⟨e.1 :: inner, ?_⟩
    rw [hcolumns, List.append_assoc, List.singleton_append]

/-- The columns that lead to a leaf begin with those around the record and one of the record's. -/
theorem Fields.columns_of_mem : ∀ {outer : List String} {fields : List (String × Tree α)}
    {leaf : Leaf α}, leaf ∈ Fields.leaves outer fields →
    ∃ e ∈ fields, ∃ inner, leaf.columns = outer ++ e.1 :: inner
  | _, [], _, h => by
    rw [Fields.leaves] at h
    exact absurd h List.not_mem_nil
  | outer, (name, v) :: rest, leaf, h => by
    rw [Fields.leaves] at h
    rcases List.mem_append.mp h with h | h
    · exact ⟨_, List.mem_cons_self, Tree.columns_of_mem h⟩
    · obtain ⟨e, he, hcolumns⟩ := Fields.columns_of_mem h
      exact ⟨e, List.mem_cons_of_mem _ he, hcolumns⟩

end

mutual

theorem Tree.Ordered.leaves : ∀ {outer : List String} {name : String} {v : Tree α},
    Tree.Ordered v → (Tree.leavesAt outer name v).Pairwise fun a b => a.columns < b.columns
  | outer, name, .leaf a, _ => by
    rw [Tree.leavesAt]
    exact List.pairwise_singleton _ _
  | outer, name, .node fields, h => by
    rw [Tree.Ordered] at h
    rw [Tree.leavesAt]
    exact h.leaves

/-- In a record whose columns are in order, the leaves come in the order of the columns that lead to
them, compared name by name. -/
theorem Fields.Ordered.leaves : ∀ {outer : List String} {fields : List (String × Tree α)},
    Fields.Ordered fields → (Fields.leaves outer fields).Pairwise fun a b => a.columns < b.columns
  | _, [], _ => by
    rw [Fields.leaves]
    exact List.Pairwise.nil
  | outer, (name, v) :: rest, h => by
    rw [Fields.Ordered] at h
    obtain ⟨hname, hv, hrest⟩ := h
    rw [Fields.leaves]
    refine List.pairwise_append.mpr ⟨hv.leaves, hrest.leaves, ?_⟩
    intro a ha b hb
    obtain ⟨inner, ha⟩ := Tree.columns_of_mem ha
    obtain ⟨e, he, inner', hb⟩ := Fields.columns_of_mem hb
    rw [ha, hb]
    exact List.append_left_lt (List.cons_lt_cons_iff.mpr (.inl (hname e he)))

end

/-! ### Leaves -/

/-- A leaf without its value. -/
def Leaf.blank (leaf : Leaf α) : Leaf Unit := leaf.map fun _ => ()

mutual

theorem Tree.leavesAt_shape : ∀ (outer : List String) (name : String) (v : Tree α),
    Tree.leavesAt outer name (Tree.shape v) = (Tree.leavesAt outer name v).map Leaf.blank
  | outer, name, .leaf a => by
    rw [Tree.shape, Tree.leavesAt, Tree.leavesAt]
    rfl
  | outer, name, .node fields => by
    rw [Tree.shape, Tree.leavesAt, Tree.leavesAt, Fields.leaves_shape]

/-- The shape of a record has a leaf in every column in which the record has one. -/
theorem Fields.leaves_shape : ∀ (outer : List String) (fields : List (String × Tree α)),
    Fields.leaves outer (Fields.shape fields) = (Fields.leaves outer fields).map Leaf.blank
  | _, [] => by
    rw [Fields.shape, Fields.leaves, Fields.leaves]
    rfl
  | outer, (name, v) :: rest => by
    rw [Fields.shape, Fields.leaves, Fields.leaves, List.map_append, Tree.leavesAt_shape,
      Fields.leaves_shape]

end

/-- Records of one shape have leaves in the same columns. -/
theorem Fields.blank_leaves_eq {fields : List (String × Tree α)} {fields' : List (String × Tree β)}
    (h : Fields.shape fields = Fields.shape fields') (outer : List String) :
    (Fields.leaves outer fields).map Leaf.blank = (Fields.leaves outer fields').map Leaf.blank := by
  rw [← Fields.leaves_shape, ← Fields.leaves_shape, h]

/-! ### What the shape decides -/

mutual

theorem Tree.depth_shape : ∀ v : Tree α, Tree.depth (Tree.shape v) = Tree.depth v
  | .leaf _ => by rw [Tree.shape, Tree.depth, Tree.depth]
  | .node fields => by rw [Tree.shape, Tree.depth, Tree.depth, Fields.depth_shape]

theorem Fields.depth_shape : ∀ fields : List (String × Tree α),
    Tree.depthFields (Fields.shape fields) = Tree.depthFields fields
  | [] => by rw [Fields.shape, Tree.depthFields, Tree.depthFields]
  | (_, v) :: rest => by
    rw [Fields.shape, Tree.depthFields, Tree.depthFields, Tree.depth_shape, Fields.depth_shape]

end

theorem Fields.names_shape (fields : List (String × Tree α)) :
    (Fields.shape fields).map Prod.fst = fields.map Prod.fst := by
  induction fields with
  | nil => rfl
  | cons e rest ih =>
    rw [Fields.shape, List.map_cons, List.map_cons, ih]

theorem Fields.forall_name_shape {p : String → Prop} (fields : List (String × Tree α)) :
    (∀ e ∈ Fields.shape fields, p e.1) ↔ ∀ e ∈ fields, p e.1 := by
  have hnames : (∀ name ∈ (Fields.shape fields).map Prod.fst, p name) ↔
      ∀ name ∈ fields.map Prod.fst, p name := by
    rw [Fields.names_shape]
  rwa [List.forall_mem_map, List.forall_mem_map] at hnames

mutual

theorem Tree.ordered_shape : ∀ v : Tree α, Tree.Ordered (Tree.shape v) ↔ Tree.Ordered v
  | .leaf _ => by rw [Tree.shape, Tree.Ordered, Tree.Ordered]
  | .node fields => by rw [Tree.shape, Tree.Ordered, Tree.Ordered, Fields.ordered_shape]

theorem Fields.ordered_shape : ∀ fields : List (String × Tree α),
    Fields.Ordered (Fields.shape fields) ↔ Fields.Ordered fields
  | [] => by rw [Fields.shape, Fields.Ordered, Fields.Ordered]
  | (_, v) :: rest => by
    rw [Fields.shape, Fields.Ordered, Fields.Ordered, Fields.forall_name_shape, Tree.ordered_shape,
      Fields.ordered_shape]

end

/-! ### Views -/

variable {law : LeafLaw}

mutual

theorem ValueViews.shape_eq : ∀ {outer : List String} {name : String} {v : Value}
    {views : Triple PartyValue}, ValueViews law outer name v views →
    ∀ p, Tree.shape (views.get p) = Tree.shape v
  | _, _, .leaf _, _, h, p => by
    rw [ValueViews] at h
    obtain ⟨texts, rfl, -⟩ := h
    rw [Triple.get_map, Tree.shape, Tree.shape]
  | _, _, .node _, _, h, p => by
    rw [ValueViews] at h
    obtain ⟨inner, rfl, hinner⟩ := h
    rw [Triple.get_map, Tree.shape, Tree.shape, hinner.shape_eq p]

/-- Each view of a record has the names and the nesting of the record. -/
theorem FieldViews.shape_eq : ∀ {outer : List String} {fields : List (String × Value)}
    {views : Triple PartyRecord}, FieldViews law outer fields views →
    ∀ p, Fields.shape (views.get p) = Fields.shape fields
  | _, [], _, h, p => by
    rw [FieldViews] at h
    rw [h, Triple.get_all, Fields.shape, Fields.shape]
  | _, (_, _) :: _, _, h, p => by
    rw [FieldViews] at h
    obtain ⟨view, inner, rfl, hview, hinner⟩ := h
    rw [Triple.get_zipWith, Fields.shape, Fields.shape, hview.shape_eq p, hinner.shape_eq p]

end

end TriShare
