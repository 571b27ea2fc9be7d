import TriShare.Proofs.Container.NameSet
import TriShare.Schema.Basic
/-!
A consistent configuration is known by what it decides, the precision of numbers and the class of
every column (`Schema.config_eq_iff`): no name is in both sets, so that neither hides what the other
says of it, and there is one field only.
-/

namespace TriShare

/-- What it is to be consistent. -/
theorem Config.fault?_eq_none_iff {c : Config} : c.fault? = none ↔
    c.fieldBits.toNat = fieldWidth ∧ c.precisionBits.toNat < c.fieldBits.toNat ∧
      ∀ name ∈ c.numericColumns.names, name ∉ c.passthroughColumns.names := by
  rw [fault?]
  split
  · next hwidth => simp [hwidth]
  · next hwidth =>
    split
    · next hprecision =>
      simp [Nat.not_lt.mpr (UInt32.le_iff_toNat_le.mp hprecision)]
    · next hprecision =>
      have hlt := UInt32.lt_iff_toNat_lt.mp (UInt32.not_le.mp hprecision)
      rw [Option.map_eq_none_iff, NameSet.firstCommon?_eq_none_iff,
        and_iff_right (not_not.mp hwidth), and_iff_right hlt]

namespace Schema

variable {s s' : Schema} {name : String}

theorem fieldBits_eq (s : Schema) : s.config.fieldBits = 64 :=
  UInt32.toNat_inj.mp (Config.fault?_eq_none_iff.mp s.consistent).1

theorem precision_lt (s : Schema) : s.precision < 64 := by
  have hlt : s.precision < s.config.fieldBits.toNat :=
    (Config.fault?_eq_none_iff.mp s.consistent).2.1
  rwa [fieldBits_eq] at hlt

theorem mem_numeric_iff : name ∈ s.config.numericColumns.names ↔ s.classify name = .numeric := by
  rw [← NameSet.contains_iff, classify]
  split
  · next h => simp [h]
  · next h => split <;> simp [h]

theorem mem_passthrough_iff :
    name ∈ s.config.passthroughColumns.names ↔ s.classify name = .passthrough := by
  rw [classify]
  split
  · next h =>
    have hout := (Config.fault?_eq_none_iff.mp s.consistent).2.2 name (NameSet.contains_iff.mp h)
    simp [hout]
  · rw [← NameSet.contains_iff]
    split
    · next h => simp [h]
    · next h => simp [h]

/-- Two configurations that decide alike are one. -/
theorem config_eq_iff : s.config = s'.config ↔
    s.precision = s'.precision ∧ ∀ name, s.classify name = s'.classify name := by
  constructor
  · intro h
    exact ⟨by rw [precision, precision, h], fun name => by rw [classify, classify, h]⟩
  · rintro ⟨hprecision, hclass⟩
    have hnumeric : s.config.numericColumns = s'.config.numericColumns :=
      NameSet.ext fun name => by rw [mem_numeric_iff, mem_numeric_iff, hclass]
    have hpassthrough : s.config.passthroughColumns = s'.config.passthroughColumns :=
      NameSet.ext fun name => by rw [mem_passthrough_iff, mem_passthrough_iff, hclass]
    have hbits : s.config.precisionBits = s'.config.precisionBits := UInt32.toNat_inj.mp hprecision
    have hwidth : s.config.fieldBits = s'.config.fieldBits := by rw [fieldBits_eq, fieldBits_eq]
    change Config.mk s.config.precisionBits s.config.fieldBits s.config.numericColumns
      s.config.passthroughColumns = s'.config
    rw [hbits, hwidth, hnumeric, hpassthrough]

end Schema

end TriShare
