import TriShare.Proofs.Bytes
import TriShare.Proofs.Container.NameSet
import TriShare.Config.Basic
/-!
The byte string of a configuration determines it (`bytes_inj`). There is no count of the columns in
it and nothing between the two sets, but each column can be taken off the front in one way only,
whatever bytes its name consists of: the tag is one byte, the length eight, and the length says
where the name ends.
-/

namespace TriShare.Config

/-! ### Columns one after another -/

/-- The columns of both sets in the order of the byte string, each with the tag of its class. -/
def taggedColumns (c : Config) : List (UInt8 × String) :=
  c.numericColumns.names.map (numericTag, ·) ++ c.passthroughColumns.names.map (passthroughTag, ·)

/-- The byte string of columns with their tags. -/
def columnsBytes (columns : List (UInt8 × String)) : List UInt8 :=
  columns.flatMap fun column => columnBytes column.1 column.2

theorem columnsBytes_cons (tag : UInt8) (name : String) (rest : List (UInt8 × String)) :
    columnsBytes ((tag, name) :: rest) = columnBytes tag name ++ columnsBytes rest :=
  List.flatMap_cons

/-- The length of each name can be counted in eight bytes. -/
def Short (columns : List (UInt8 × String)) : Prop :=
  ∀ column ∈ columns, column.2.utf8ByteSize < 2 ^ 64

theorem bytes_eq (c : Config) : c.bytes =
    Bytes.littleEndian 4 c.precisionBits.toNat ++
      (Bytes.littleEndian 4 c.fieldBits.toNat ++ columnsBytes c.taggedColumns) := by
  rw [bytes, columnsBytes, taggedColumns, List.flatMap_append, List.flatMap_map, List.flatMap_map,
    List.append_assoc, List.append_assoc]

/-- A column is read off the front of a byte string in one way only. -/
theorem columnBytes_append_inj {tag tag' : UInt8} {name name' : String} {rest rest' : List UInt8}
    (hsize : name.utf8ByteSize < 2 ^ 64) (hsize' : name'.utf8ByteSize < 2 ^ 64)
    (h : columnBytes tag name ++ rest = columnBytes tag' name' ++ rest') :
    tag = tag' ∧ name = name' ∧ rest = rest' := by
  simp only [columnBytes, List.cons_append, List.append_assoc, List.cons.injEq] at h
  obtain ⟨rfl, h⟩ := h
  obtain ⟨hlength, h⟩ :=
    List.append_inj h (by rw [Bytes.length_littleEndian, Bytes.length_littleEndian])
  rw [Bytes.littleEndian_inj hsize hsize'] at hlength
  obtain ⟨hname, rfl⟩ := List.append_inj h hlength
  exact ⟨rfl, Bytes.ofText_injective hname, rfl⟩

theorem columnsBytes_inj : ∀ {columns columns' : List (UInt8 × String)}, Short columns →
    Short columns' → columnsBytes columns = columnsBytes columns' → columns = columns'
  | [], [], _, _, _ => rfl
  | [], (_, _) :: _, _, _, h => by simp [columnsBytes, columnBytes] at h
  | (_, _) :: _, [], _, _, h => by simp [columnsBytes, columnBytes] at h
  | (tag, name) :: rest, (tag', name') :: rest', hshort, hshort', h => by
    obtain ⟨hsize, hshort⟩ : name.utf8ByteSize < 2 ^ 64 ∧ Short rest :=
      List.forall_mem_cons.mp hshort
    obtain ⟨hsize', hshort'⟩ : name'.utf8ByteSize < 2 ^ 64 ∧ Short rest' :=
      List.forall_mem_cons.mp hshort'
    rw [columnsBytes_cons, columnsBytes_cons] at h
    obtain ⟨htag, hname, hrest⟩ := columnBytes_append_inj hsize hsize' h
    rw [htag, hname, columnsBytes_inj hshort hshort' hrest]

/-! ### Both sets -/

/-- The names of the columns with a tag. -/
def namesUnder (tag : UInt8) (columns : List (UInt8 × String)) : List String :=
  columns.filterMap fun column => if column.1 = tag then some column.2 else none

theorem namesUnder_numeric (c : Config) :
    namesUnder numericTag c.taggedColumns = c.numericColumns.names := by
  simp [namesUnder, taggedColumns, numericTag, passthroughTag]

theorem namesUnder_passthrough (c : Config) :
    namesUnder passthroughTag c.taggedColumns = c.passthroughColumns.names := by
  simp [namesUnder, taggedColumns, numericTag, passthroughTag]

/-- No column has a name of `2 ^ 64` bytes or more. -/
def NamesFit (c : Config) : Prop :=
  (∀ name ∈ c.numericColumns.names, name.utf8ByteSize < 2 ^ 64) ∧
    ∀ name ∈ c.passthroughColumns.names, name.utf8ByteSize < 2 ^ 64

theorem NamesFit.short {c : Config} (h : c.NamesFit) : Short c.taggedColumns := by
  intro column hmem
  rcases List.mem_append.mp hmem with hmem | hmem
  · obtain ⟨name, hname, rfl⟩ := List.mem_map.mp hmem
    exact h.1 name hname
  · obtain ⟨name, hname, rfl⟩ := List.mem_map.mp hmem
    exact h.2 name hname

theorem littleEndian_toNat_inj {w w' : UInt32} :
    Bytes.littleEndian 4 w.toNat = Bytes.littleEndian 4 w'.toNat ↔ w = w' :=
  (Bytes.littleEndian_inj w.toNat_lt w'.toNat_lt).trans UInt32.toNat_inj

/-- Two configurations with the same byte string are one. -/
theorem bytes_inj {c c' : Config} (h : c.NamesFit) (h' : c'.NamesFit) :
    c.bytes = c'.bytes ↔ c = c' := by
  refine ⟨fun hbytes => ?_, fun heq => by rw [heq]⟩
  rw [bytes_eq, bytes_eq] at hbytes
  obtain ⟨hprecision, hbytes⟩ :=
    List.append_inj hbytes (by rw [Bytes.length_littleEndian, Bytes.length_littleEndian])
  obtain ⟨hwidth, hbytes⟩ :=
    List.append_inj hbytes (by rw [Bytes.length_littleEndian, Bytes.length_littleEndian])
  have hcolumns := columnsBytes_inj h.short h'.short hbytes
  -- Which set a column is in is told by its tag, so that no mark is needed between the sets.
  have hnumeric : c.numericColumns = c'.numericColumns := NameSet.ext fun name => by
    rw [← namesUnder_numeric, hcolumns, namesUnder_numeric]
  have hpassthrough : c.passthroughColumns = c'.passthroughColumns := NameSet.ext fun name => by
    rw [← namesUnder_passthrough, hcolumns, namesUnder_passthrough]
  change Config.mk c.precisionBits c.fieldBits c.numericColumns c.passthroughColumns = c'
  rw [littleEndian_toNat_inj.mp hprecision, littleEndian_toNat_inj.mp hwidth, hnumeric,
    hpassthrough]

end TriShare.Config
