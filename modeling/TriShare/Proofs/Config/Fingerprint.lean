import TriShare.Config.Json
import TriShare.Profile.Profiler
import TriShare.Proofs.Config.Bytes
import TriShare.Proofs.Config.Classes
import TriShare.Proofs.Table.Opening
import TriShare.Proofs.Text.Hex
/-!
What the fingerprint of a configuration stands for (`bytes_identify`). Its byte string is that of
one configuration only, so that widths serve the schemas that decide as theirs does; and a
configuration document has it whatever the order and the repetition of its column names.
-/

namespace TriShare

/-! ### Widths and schemas -/

theorem Profiler.fingerprint_of_finish {p : Profiler} {w : Widths} (h : p.finish = .ok w) :
    w.fingerprint = p.schema.fingerprint := by
  rw [finish] at h
  split at h
  · cases h
  · rw [Except.ok.injEq] at h
    rw [← h]

theorem Widths.check_eq_ok_iff {w : Widths} {s : Schema} :
    w.check s = .ok () ↔ w.fingerprint = s.fingerprint := by
  rw [check]
  split
  · next h => simp [h]
  · next h => simp [h]

namespace Config

theorem fingerprint_eq_iff {c c' : Config} :
    c.fingerprint = c'.fingerprint ↔ Blake3.hash c.bytes = Blake3.hash c'.bytes :=
  Hex.encode_injective.eq_iff

/-! ### Documents -/

/-- Two arrays of the same names, each in any order and any number of times. -/
def SameNames (v v' : Json) : Prop :=
  ∃ names names', v.strings? = some names ∧ v'.strings? = some names' ∧
    ∀ name, name ∈ names ↔ name ∈ names'

/-- Two values of a field that differ in the order and the repetition of column names at most. -/
inductive SameValue (field : String) : Json → Json → Prop
  | same (v : Json) : SameValue field v v
  | names {v v' : Json} : field = numericField ∨ field = passthroughField → SameNames v v' →
      SameValue field v v'

/-- Two documents that differ in the order and the repetition of column names at most. -/
inductive SameColumns : Json → Json → Prop
  | object {fields fields' : List (String × Json)} :
      List.Forall₂ (fun f f' => f.1 = f'.1 ∧ SameValue f.1 f.2 f'.2) fields fields' →
      SameColumns (.object fields) (.object fields')
  | array {items items' : List Json} : items.length = items'.length →
      (∀ (i : Nat) (field : String) (v v' : Json), fieldNames[i]? = some field →
        items[i]? = some v → items'[i]? = some v' → SameValue field v v') →
      SameColumns (.array items) (.array items')

theorem SameNames.names?_eq {v v' : Json} (h : SameNames v v') : names? v = names? v' := by
  obtain ⟨names, names', hnames, hnames', hmem⟩ := h
  rw [names?, names?, hnames, hnames', Option.map_some, Option.map_some, NameSet.ofList_congr hmem]

/-- A field that holds no column names has one value. -/
theorem SameValue.eq {field : String} {v v' : Json} (h : SameValue field v v')
    (hnumeric : field ≠ numericField) (hpassthrough : field ≠ passthroughField) : v = v' := by
  cases h with
  | same => rfl
  | names hfield _ => exact (hfield.elim hnumeric hpassthrough).elim

theorem SameValue.names?_eq {field : String} {v v' : Json} (h : SameValue field v v') :
    names? v = names? v' := by
  cases h with
  | same => rfl
  | names _ hnames => exact hnames.names?_eq

theorem optional_congr {α : Type} {absent : α} {decode : Json → Option α} {R : Json → Json → Prop}
    {vs vs' : List Json} (hdecode : ∀ v v', R v v' → decode v = decode v')
    (h : List.Forall₂ R vs vs') : optional absent decode vs = optional absent decode vs' := by
  cases h with
  | nil => rfl
  | cons hv hrest =>
    cases hrest with
    | nil => exact hdecode _ _ hv
    | cons => rfl

/-- A configuration is read from the values up to the order and the repetition of column names. -/
theorem ofValues?_congr {precision width numeric passthrough precision' width' numeric'
    passthrough' : List Json}
    (hprecision : List.Forall₂ (SameValue precisionField) precision precision')
    (hwidth : List.Forall₂ (SameValue widthField) width width')
    (hnumeric : List.Forall₂ (SameValue numericField) numeric numeric')
    (hpassthrough : List.Forall₂ (SameValue passthroughField) passthrough passthrough') :
    ofValues? precision width numeric passthrough =
      ofValues? precision' width' numeric' passthrough' := by
  have hbits : ∀ field, field ≠ numericField → field ≠ passthroughField →
      ∀ v v', SameValue field v v' → bits? v = bits? v' :=
    fun _ hn hp v v' h => congrArg bits? (h.eq hn hp)
  have hnames : ∀ field v v', SameValue field v v' → names? v = names? v' :=
    fun _ _ _ h => h.names?_eq
  rw [ofValues?, ofValues?,
    optional_congr (hbits precisionField (by decide) (by decide)) hprecision,
    optional_congr (hbits widthField (by decide) (by decide)) hwidth,
    optional_congr (hnames numericField) hnumeric,
    optional_congr (hnames passthroughField) hpassthrough]

theorem valuesOf_same {name : String} {fields fields' : List (String × Json)}
    (h : List.Forall₂ (fun f f' => f.1 = f'.1 ∧ SameValue f.1 f.2 f'.2) fields fields') :
    List.Forall₂ (SameValue name) (Json.valuesOf name fields) (Json.valuesOf name fields') := by
  induction h with
  | nil => exact .nil
  | @cons f f' fields fields' hfield _ ih =>
    obtain ⟨key, v⟩ := f
    obtain ⟨key', v'⟩ := f'
    obtain ⟨rfl, hv⟩ : key = key' ∧ SameValue key v v' := hfield
    by_cases hname : key = name
    · subst hname
      simpa [Json.valuesOf] using And.intro hv ih
    · simpa [Json.valuesOf, hname] using ih

theorem item_same {items items' : List Json} {i : Nat} {field : String}
    (hlength : items.length = items'.length)
    (h : ∀ v v', items[i]? = some v → items'[i]? = some v' → SameValue field v v') :
    List.Forall₂ (SameValue field) (items[i]?).toList (items'[i]?).toList := by
  by_cases hi : i < items.length
  · have hi' : i < items'.length := hlength ▸ hi
    rw [List.getElem?_eq_getElem hi, List.getElem?_eq_getElem hi']
    exact .cons (h _ _ (List.getElem?_eq_getElem hi) (List.getElem?_eq_getElem hi')) .nil
  · rw [List.getElem?_eq_none (not_lt.mp hi), List.getElem?_eq_none (hlength ▸ not_lt.mp hi)]
    exact .nil

theorem SameColumns.ofJson?_eq {doc doc' : Json} (h : SameColumns doc doc') :
    ofJson? doc = ofJson? doc' := by
  cases h with
  | object h =>
    exact ofValues?_congr (valuesOf_same h) (valuesOf_same h) (valuesOf_same h) (valuesOf_same h)
  | array hlength h =>
    rw [ofJson?, ofJson?, hlength]
    split
    · exact ofValues?_congr (item_same hlength fun v v' => h 0 _ v v' rfl)
        (item_same hlength fun v v' => h 1 _ v v' rfl)
        (item_same hlength fun v v' => h 2 _ v v' rfl)
        (item_same hlength fun v v' => h 3 _ v v' rfl)
    · rfl

/-! ### The result -/

/-- The byte string that is hashed is that of one configuration. So, where the hash does not take
two different byte strings together, widths pass under the schemas that have their precision and
their classes, and under no other. The configuration, and with it the byte string, is the same
whatever the order and the repetition of the names in the column arrays of its text. -/
theorem bytes_identify {c c' : Config} (h : c.NamesFit) (h' : c'.NamesFit) :
    (c.bytes = c'.bytes ↔ c = c') ∧
    (∀ (p : Profiler) (s : Schema) (w : Widths), p.schema.config = c → s.config = c' →
      p.finish = .ok w →
      (Blake3.hash c.bytes = Blake3.hash c'.bytes → c.bytes = c'.bytes) →
      (w.check s = .ok () ↔ p.schema.precision = s.precision ∧
        ∀ name, p.schema.classify name = s.classify name)) ∧
    ∀ (text text' : String) (doc doc' : Json),
      Json.readKnown? fieldNames.contains text = some doc →
      Json.readKnown? fieldNames.contains text' = some doc' →
      SameColumns doc doc' → parse? text = parse? text' := by
  refine ⟨bytes_inj h h', ?_, ?_⟩
  · rintro p s w rfl rfl hfinish hcollision
    have hhash : Blake3.hash p.schema.config.bytes = Blake3.hash s.config.bytes ↔
        p.schema.config.bytes = s.config.bytes := ⟨hcollision, fun heq => by rw [heq]⟩
    rw [Widths.check_eq_ok_iff, Profiler.fingerprint_of_finish hfinish, Schema.fingerprint,
      Schema.fingerprint, fingerprint_eq_iff, hhash, bytes_inj h h', Schema.config_eq_iff]
  · intro text text' doc doc' hread hread' hsame
    rw [parse?, parse?, hread, hread']
    exact hsame.ofJson?_eq

/-- The schema of receipts with dates for numbers. -/
def datedSchema : Schema := ⟨⟨10, 64, ⟨["date", "price"], by decide⟩, ⟨[], by decide⟩⟩, rfl⟩

/-- A profiler of receipts that has seen one record without columns. -/
def receiptProfiler : Profiler := ⟨receiptSchema, NameMap.empty, 1⟩

theorem bytes_identify_receipts :
    receiptSchema.config.bytes ≠ datedSchema.config.bytes ∧
    (∃ w, receiptProfiler.finish = .ok w ∧ w.check datedSchema ≠ .ok ()) ∧
    parse? "\x7b\"numeric_columns\": [\"b\", \"a\", \"b\"]\x7d" =
      parse? "\x7b\"numeric_columns\": [\"a\", \"b\"]\x7d" := by
  obtain ⟨hbytes, hwidths, hdocuments⟩ :=
    @bytes_identify receiptSchema.config datedSchema.config ⟨by decide, by decide⟩
      ⟨by decide, by decide⟩
  have hne : receiptSchema.config.bytes ≠ datedSchema.config.bytes := fun heq =>
    absurd (hbytes.mp heq) (by decide)
  refine ⟨hne, ⟨_, rfl, fun hcheck => ?_⟩, ?_⟩
  · have hcollision : Blake3.hash receiptSchema.config.bytes ≠
        Blake3.hash datedSchema.config.bytes := by decide +kernel
    have hclass := (hwidths receiptProfiler datedSchema _ rfl rfl rfl
      fun hhash => (hcollision hhash).elim).mp hcheck
    exact absurd (hclass.2 "date") (by decide)
  · refine hdocuments _ _ (.object [(numericField, .array [.string "b", .string "a", .string "b"])])
      (.object [(numericField, .array [.string "a", .string "b"])]) rfl rfl
      (.object (.cons ⟨rfl, .names (.inl rfl) ⟨["b", "a", "b"], ["a", "b"], rfl, rfl, ?_⟩⟩ .nil))
    intro name
    simp only [List.mem_cons, List.not_mem_nil, or_false]
    tauto

end Config

end TriShare
