import TriShare.Proofs.Config.Classes
import TriShare.Proofs.Number.Grammar
import TriShare.Proofs.Table.Nested
import TriShare.Proofs.Table.Recordwise
/-!
Sharing fails for a bad value only, and its error names the first one. `Flaw` says what can be wrong
with a value in a column of a class, and which error belongs to it. Whether a table is shared, and
with which error it is not, depends on nothing else (`shareTable_failsAtFirstBad`).
-/

namespace TriShare

/-! ### Flaws of values -/

def Value.kind : Value → ValueKind
  | .leaf x => x.kind
  | .node _ => .record

/-- The text that is read as a number: that of a text, or of a number as it is written. -/
def Value.numeral? : Value → Option String
  | .leaf (.text s) => some s
  | .leaf (.number n) => some n.text
  | _ => none

/-- The text that is passed on in the clear: truth values have one too. -/
def Value.plain? : Value → Option String
  | .leaf (.bool b) => some (ColumnClass.boolText b)
  | v => Value.numeral? v

/-- What is wrong with a value in a column of a class. Numeric columns hold texts and numbers that
are decimal numbers of the field, passthrough columns any of texts, numbers and truth values, and
all other columns texts of single-byte characters. -/
inductive Flaw (precision : Nat) : ColumnClass → Value → FieldError → Prop
  | notNumeric {v : Value} (h : Value.numeral? v = none) :
    Flaw precision .numeric v (.mismatch (.inNumeric (Value.kind v)))
  | notDecimal {v : Value} {text : String} (h : Value.numeral? v = some text)
    (hnot : ∀ n : Numeral, ¬n.In text) : Flaw precision .numeric v (.mismatch (.notDecimal text))
  | tooLarge {v : Value} {text : String} {n : Numeral} (h : Value.numeral? v = some text)
    (hn : n.In text) (hfield : FixedPoint.ofDecimal? precision n.toDecimal = none) :
    Flaw precision .numeric v (.overflow text)
  | notPlain {v : Value} (h : Value.plain? v = none) :
    Flaw precision .passthrough v (.mismatch (.inPassthrough (Value.kind v)))
  | unsupported {x : Scalar} (h : ∀ text, x ≠ .text text) :
    Flaw precision .shared (.leaf x) (.unsupported x.kind)
  | character {text : String} {before after : List Char} {c : Char}
    (htext : text.toList = before ++ c :: after) (hbefore : ∀ d ∈ before, d.toNat ≤ 0xFF)
    (hc : 0xFF < c.toNat) :
    Flaw precision .shared (.leaf (.text text)) (.unencodable ⟨c, before.length⟩)

variable {precision : Nat} {v : Value} {e : FieldError}

theorem flaw_numeric_iff : Flaw precision .numeric v e ↔
    match Value.numeral? v with
    | none => e = .mismatch (.inNumeric (Value.kind v))
    | some text => FixedPoint.encode precision text = .error e := by
  constructor
  · rintro (h | ⟨h, hnot⟩ | ⟨h, hn, hfield⟩)
    · rw [h]
    · rw [h]
      exact FixedPoint.encode_eq_error_iff.mpr (.inl ⟨hnot, rfl⟩)
    · rw [h]
      exact FixedPoint.encode_eq_error_iff.mpr (.inr ⟨⟨_, hn, hfield⟩, rfl⟩)
  · intro h
    cases htext : Value.numeral? v with
    | none =>
      rw [htext] at h
      rw [h]
      exact .notNumeric htext
    | some text =>
      rw [htext] at h
      rcases FixedPoint.encode_eq_error_iff.mp h with ⟨hnot, rfl⟩ | ⟨⟨n, hn, hfield⟩, rfl⟩
      · exact .notDecimal htext hnot
      · exact .tooLarge htext hn hfield

theorem flaw_passthrough_iff : Flaw precision .passthrough v e ↔
    Value.plain? v = none ∧ e = .mismatch (.inPassthrough (Value.kind v)) := by
  constructor
  · rintro (_ | _ | _ | h)
    exact ⟨h, rfl⟩
  · rintro ⟨h, rfl⟩
    exact .notPlain h

theorem flaw_text_iff {text : String} : Flaw precision .shared (.leaf (.text text)) e ↔
    ∃ found, Latin1.encode text = .error found ∧ e = .unencodable found := by
  constructor
  · rintro (_ | _ | _ | _ | h | ⟨htext, hbefore, hc⟩)
    · exact absurd rfl (h text)
    · exact ⟨_, Latin1.encode_eq_error_iff.mpr ⟨_, _, _, htext, hbefore, hc, rfl⟩, rfl⟩
  · rintro ⟨found, hfound, rfl⟩
    obtain ⟨before, c, after, htext, hbefore, hc, rfl⟩ := Latin1.encode_eq_error_iff.mp hfound
    exact .character htext hbefore hc

/-! ### Bad values of a record -/

namespace Spot

/-- Whether this is wrong with it, in a column of the class under which it is shared: that of its
name where the path of the columns around it is empty, and byte-shared elsewhere. -/
def Bad (schema : Schema) (spot : Spot) (cause : FieldError) : Prop :=
  Flaw schema.precision (spot.columnClass schema) spot.value cause

end Spot

variable {schema : Schema} {spot : Spot}

mutual

theorem columnClass_of_mem_spotsAt : ∀ {outer : List String} {name : String} {v : Value}
    {spot : Spot}, spot ∈ schema.spotsAt outer name v → ∀ fields, spot.value = .node fields →
      spot.columnClass schema ≠ .shared
  | outer, name, .leaf x, spot, h, fields, hvalue => by
    rw [Schema.spotsAt, List.mem_singleton] at h
    rw [h] at hvalue
    cases hvalue
  | outer, name, .node fields', spot, h, fields, hvalue => by
    rw [Schema.spotsAt] at h
    cases hclass : schema.classAt (pathOf outer) name with
    | shared =>
      rw [hclass] at h
      exact columnClass_of_mem_spots h fields hvalue
    | numeric =>
      rw [hclass, List.mem_singleton] at h
      rw [h, Spot.columnClass, hclass]
      exact ColumnClass.noConfusion
    | passthrough =>
      rw [hclass, List.mem_singleton] at h
      rw [h, Spot.columnClass, hclass]
      exact ColumnClass.noConfusion

/-- Records are bad values only outside byte-shared columns. -/
theorem columnClass_of_mem_spots : ∀ {outer : List String} {fields : List (String × Value)}
    {spot : Spot}, spot ∈ schema.spots outer fields → ∀ fields', spot.value = .node fields' →
      spot.columnClass schema ≠ .shared
  | outer, [], spot, h, fields', hvalue => by
    rw [Schema.spots] at h
    cases h
  | outer, (name, v) :: rest, spot, h, fields', hvalue => by
    rw [Schema.spots] at h
    rcases List.mem_append.mp h with h | h
    · exact columnClass_of_mem_spotsAt h fields' hvalue
    · exact columnClass_of_mem_spots h fields' hvalue

end

namespace Spot

/-- A numeric column takes a value for its numeral. -/
theorem content_of_numeric (h : spot.columnClass schema = .numeric) : spot.content schema =
    match Value.numeral? spot.value with
    | none => .error (.mismatch (.inNumeric (Value.kind spot.value)))
    | some text => .ok (.numeric text) := by
  rw [content, h]
  cases spot.value with
  | node fields => rfl
  | leaf x => cases x <;> rfl

/-- A passthrough column takes a value for its text in the clear. -/
theorem content_of_passthrough (h : spot.columnClass schema = .passthrough) : spot.content schema =
    match Value.plain? spot.value with
    | none => .error (.mismatch (.inPassthrough (Value.kind spot.value)))
    | some text => .ok (.passthrough text) := by
  rw [content, h]
  cases spot.value with
  | node fields => rfl
  | leaf x => cases x <;> rfl

end Spot

theorem numeric_fault?_eq_some_iff {text : String} :
    (Content.numeric text).fault? precision = some e ↔
      FixedPoint.encode precision text = .error e := by
  rw [Content.fault?]
  cases FixedPoint.encode precision text <;> simp

theorem bytes_fault?_eq_some_iff {text : String} :
    (Content.bytes text).fault? precision = some e ↔
      ∃ found, Latin1.encode text = .error found ∧ e = .unencodable found := by
  rw [Content.fault?]
  cases Latin1.encode text <;> simp [eq_comm]

/-- What ends the sharing at a value is what is wrong with it. -/
theorem fault?_eq_some_iff {record : Record} (h : spot ∈ schema.spots [] record) :
    spot.fault? schema = some e ↔ spot.Bad schema e := by
  rw [Spot.fault?, Spot.Bad]
  cases hclass : spot.columnClass schema with
  | numeric =>
    rw [Spot.content_of_numeric hclass, flaw_numeric_iff]
    cases Value.numeral? spot.value with
    | none => simp [eq_comm]
    | some text => exact numeric_fault?_eq_some_iff
  | passthrough =>
    rw [Spot.content_of_passthrough hclass, flaw_passthrough_iff]
    cases Value.plain? spot.value <;> simp [Content.fault?, eq_comm]
  | shared =>
    rw [Spot.content, hclass]
    cases hvalue : spot.value with
    | node fields => exact absurd hclass (columnClass_of_mem_spots h fields hvalue)
    | leaf x =>
      rcases content_shared x with ⟨text, rfl, hbytes⟩ | ⟨hx, herror⟩
      · rw [flaw_text_iff]
        simp only [hbytes, bytes_fault?_eq_some_iff]
      · simp only [herror, Option.some.injEq]
        constructor
        · rintro rfl
          exact .unsupported hx
        · rintro (_ | _ | _ | _ | _ | ⟨_⟩)
          · rfl
          · exact absurd rfl (hx _)

/-! ### The first bad value -/

/-- Nothing is wrong with any value of a record. -/
def Flawless (schema : Schema) (record : Record) : Prop :=
  ∀ spot ∈ schema.spots [] record, ∀ cause, ¬spot.Bad schema cause

/-- The first bad value of a record, and what is wrong with it. -/
def FirstIn (schema : Schema) (record : Record) (spot : Spot) (cause : FieldError) : Prop :=
  ∃ before after, schema.spots [] record = before ++ spot :: after ∧
    (∀ earlier ∈ before, ∀ cause', ¬earlier.Bad schema cause') ∧ spot.Bad schema cause

/-- The first bad value of a table, in the record with this index, and what is wrong with it. -/
inductive FirstBad (schema : Schema) : List Record → Nat → Spot → FieldError → Prop
  | here {record : Record} {rest : List Record} {spot : Spot} {cause : FieldError}
    (h : FirstIn schema record spot cause) : FirstBad schema (record :: rest) 0 spot cause
  | later {record : Record} {rest : List Record} {index : Nat} {spot : Spot} {cause : FieldError}
    (h : Flawless schema record) (hrest : FirstBad schema rest index spot cause) :
    FirstBad schema (record :: rest) (index + 1) spot cause

variable {record : Record} {r : Rejection}

theorem rejection?_eq_none_iff (h : spot ∈ schema.spots [] record) :
    spot.rejection? schema = none ↔ ∀ cause, ¬spot.Bad schema cause := by
  simp only [Spot.rejection?, Option.map_eq_none_iff, ← fault?_eq_some_iff h]
  exact Option.eq_none_iff_forall_ne_some

theorem rejection?_eq_some_iff (h : spot ∈ schema.spots [] record) :
    spot.rejection? schema = some r ↔ ∃ cause, spot.Bad schema cause ∧ r = ⟨spot.path, cause⟩ := by
  simp only [Spot.rejection?, Option.map_eq_some_iff, fault?_eq_some_iff h]
  exact exists_congr fun cause => and_congr_right fun _ => eq_comm

theorem firstRejection_eq_none_iff :
    schema.firstRejection (schema.spots [] record) = none ↔ Flawless schema record := by
  rw [Schema.firstRejection, List.findSome?_eq_none_iff]
  exact forall₂_congr fun spot hspot => rejection?_eq_none_iff hspot

/-- A record is rejected for its first bad value. -/
theorem firstRejection_eq_some_iff : schema.firstRejection (schema.spots [] record) = some r ↔
    ∃ spot cause, FirstIn schema record spot cause ∧ r = ⟨spot.path, cause⟩ := by
  rw [Schema.firstRejection, List.findSome?_eq_some_iff]
  constructor
  · rintro ⟨before, spot, after, hlist, hspot, hbefore⟩
    have hmem : spot ∈ schema.spots [] record := by simp [hlist]
    obtain ⟨cause, hbad, rfl⟩ := (rejection?_eq_some_iff hmem).mp hspot
    refine ⟨spot, cause, ⟨before, after, hlist, fun earlier hearlier => ?_, hbad⟩, rfl⟩
    have hmem' : earlier ∈ schema.spots [] record := by simp [hlist, hearlier]
    exact (rejection?_eq_none_iff hmem').mp (hbefore earlier hearlier)
  · rintro ⟨spot, cause, ⟨before, after, hlist, hbefore, hbad⟩, rfl⟩
    have hmem : spot ∈ schema.spots [] record := by simp [hlist]
    refine ⟨before, spot, after, hlist, (rejection?_eq_some_iff hmem).mpr ⟨cause, hbad, rfl⟩, ?_⟩
    intro earlier hearlier
    have hmem' : earlier ∈ schema.spots [] record := by simp [hlist, hearlier]
    exact (rejection?_eq_none_iff hmem').mpr (hbefore earlier hearlier)

/-- The error of a table is that of its first bad value. -/
theorem firstError_eq_some_iff : ∀ {table : List Record} {start : Nat} {error : Error},
    schema.firstError start table = some error ↔ ∃ index spot cause,
      FirstBad schema table index spot cause ∧ error = .field (start + index) spot.path cause
  | [], start, error => by
    rw [Schema.firstError]
    constructor
    · rintro ⟨⟩
    · rintro ⟨index, spot, cause, ⟨⟩, -⟩
  | record :: rest, start, error => by
    rw [Schema.firstError]
    cases hfirst : schema.firstRejection (schema.spots [] record) with
    | some r =>
      simp only [Option.some.injEq]
      constructor
      · rintro rfl
        obtain ⟨spot, cause, hspot, rfl⟩ := firstRejection_eq_some_iff.mp hfirst
        exact ⟨0, spot, cause, .here hspot, rfl⟩
      · rintro ⟨index, spot, cause, h, rfl⟩
        cases h with
        | here hspot =>
          rw [firstRejection_eq_some_iff.mpr ⟨spot, cause, hspot, rfl⟩, Option.some.injEq] at hfirst
          rw [← hfirst]
          rfl
        | later hflawless => simp [firstRejection_eq_none_iff.mpr hflawless] at hfirst
    | none =>
      simp only [firstError_eq_some_iff]
      constructor
      · rintro ⟨index, spot, cause, h, rfl⟩
        refine ⟨index + 1, spot, cause, .later (firstRejection_eq_none_iff.mp hfirst) h, ?_⟩
        rw [Nat.add_assoc, Nat.add_comm 1]
      · rintro ⟨index, spot, cause, h, rfl⟩
        cases h with
        | here hspot => simp [firstRejection_eq_some_iff.mpr ⟨spot, cause, hspot, rfl⟩] at hfirst
        | @later _ _ index _ _ hflawless hrest =>
          exact ⟨index, spot, cause, hrest, by rw [Nat.add_assoc, Nat.add_comm 1]⟩

theorem firstError_eq_none_iff {table : List Record} : ∀ {start : Nat},
    schema.firstError start table = none ↔ ∀ record ∈ table, Flawless schema record := by
  induction table with
  | nil => simp [Schema.firstError]
  | cons record rest ih =>
    intro start
    rw [Schema.firstError, List.forall_mem_cons, ← firstRejection_eq_none_iff]
    cases schema.firstRejection (schema.spots [] record) with
    | none => simp [ih]
    | some r => simp

theorem FirstBad.append {table : List Record} {index : Nat} {cause : FieldError}
    (h : FirstBad schema table index spot cause) (rest : List Record) :
    FirstBad schema (table ++ rest) index spot cause := by
  induction h with
  | here hspot => exact .here hspot
  | later hflawless _ ih => exact .later hflawless ih

/-! ### Tables -/

/-- Sharing a table fails for a bad value and for nothing else, with the error of the first one.
The values come record by record, and those of a record in the order of its columns, nested records
in place. -/
structure FailsAtFirstBad (schema : Schema) (table : List Record) (source : Source) : Prop where
  fails : (∃ error, (shareTable schema table source).1 = .error error) ↔
    ∃ record ∈ table, ∃ spot ∈ schema.spots [] record, ∃ cause, spot.Bad schema cause
  succeeds : (∃ views, (shareTable schema table source).1 = .ok views) ↔
    ∀ record ∈ table, Flawless schema record
  /-- The error names the record, the path of the value in it, and what is wrong with it. -/
  names : ∀ error, (shareTable schema table source).1 = .error error ↔ ∃ index spot cause,
    FirstBad schema table index spot cause ∧ error = .field index spot.path cause
  /-- Neither further records nor another source change an error. -/
  later : ∀ error, (shareTable schema table source).1 = .error error → ∀ rest source',
    (shareTable schema (table ++ rest) source').1 = .error error
  /-- Nor does what else there is in a table with this first bad value. -/
  elsewhere : ∀ index spot cause, FirstBad schema table index spot cause → ∀ table' source',
    FirstBad schema table' index spot cause →
      (shareTable schema table' source').1 = (shareTable schema table source).1
  /-- A number is too large where it does not fit the field, whatever text of less than `2 ^ 62`
  bytes it stands in. -/
  fits : ∀ (text : String) (n : Numeral), n.In text → text.utf8ByteSize < 2 ^ 62 →
    (FixedPoint.ofDecimal? schema.precision n.toDecimal = none ↔ ¬n.Fits schema.precision)

/-- Whatever the table and the source are, sharing fails at the first bad value. -/
theorem shareTable_failsAtFirstBad (schema : Schema) (table : List Record) (source : Source) :
    FailsAtFirstBad schema table source := by
  have hrecordwise : ∀ table source, Recordwise schema 0 table (shareTable schema table source).1 :=
    fun table source => recordwise_shareRecords schema table 0 source
  have herror : ∀ table source error, (shareTable schema table source).1 = .error error ↔
      ∃ index spot cause, FirstBad schema table index spot cause ∧
        error = .field index spot.path cause := by
    intro table source error
    rw [(hrecordwise table source).eq_error_iff, firstError_eq_some_iff]
    simp only [Nat.zero_add]
  have hsucceeds : (∃ views, (shareTable schema table source).1 = .ok views) ↔
      ∀ record ∈ table, Flawless schema record :=
    (hrecordwise table source).isOk_iff.trans firstError_eq_none_iff
  constructor
  case fails =>
    have hnot : (∃ error, (shareTable schema table source).1 = .error error) ↔
        ¬∃ views, (shareTable schema table source).1 = .ok views := by
      cases (shareTable schema table source).1 <;> simp
    rw [hnot, hsucceeds]
    simp only [Flawless, not_forall, not_not, exists_prop]
  case succeeds => exact hsucceeds
  case names => exact herror table source
  case later =>
    intro error h rest source'
    obtain ⟨index, spot, cause, hbad, rfl⟩ := (herror table source error).mp h
    exact (herror _ source' _).mpr ⟨index, spot, cause, hbad.append rest, rfl⟩
  case elsewhere =>
    intro index spot cause hbad table' source' hbad'
    rw [(herror table source _).mpr ⟨index, spot, cause, hbad, rfl⟩,
      (herror table' source' _).mpr ⟨index, spot, cause, hbad', rfl⟩]
  case fits =>
    intro text n hn hsize
    exact FixedPoint.ofDecimal?_eq_none_iff schema.precision_lt.le hn hsize

end TriShare
