import TriShare.Proofs.Config.Classes
import TriShare.Proofs.Number.FixedPoint
import TriShare.Proofs.Number.Rounding
import TriShare.Proofs.Padding.Block
import TriShare.Proofs.Padding.Encoding
/-!
The numbers of a document in columns. The text of a number is a numeral of at most twenty-four
characters, so a numeric column takes it for a number, which is scaled, truncated and encoded if it
fits into the field, and a column in the clear shows it to everyone, two blocks being enough for it.
-/

namespace TriShare

/-! ### Truncation -/

namespace FixedPoint

/-- A number without what stands behind its point. -/
def truncate (q : ℚ) : Int := if q < 0 then ⌈q⌉ else ⌊q⌋

/-- The element of the field for an integer: its remainder, for the integers of 64 bits with or
without a sign, and an overflow for the others. -/
def elementOfInt (text : String) (n : Int) : Except FieldError UInt64 :=
  if -2 ^ 63 ≤ n ∧ n < 2 ^ 64 then .ok (UInt64.ofInt n) else .error (.overflow text)

theorem truncate_intCast (n : Int) : truncate n = n := by
  rw [truncate, Int.ceil_intCast, Int.floor_intCast, ite_self]

theorem truncate_of_nonneg {q : ℚ} (h : 0 ≤ q) : truncate q = ⌊q⌋₊ := by
  rw [truncate, if_neg (not_lt.mpr h), ← Int.natCast_floor_eq_floor h]

theorem truncate_neg {q : ℚ} (h : 0 ≤ q) : truncate (-q) = -(⌊q⌋₊ : Int) := by
  rcases h.eq_or_lt with hzero | hpos
  · rw [← hzero]
    simp [truncate]
  · rw [truncate, if_pos (neg_neg_of_pos hpos), Int.ceil_neg, ← Int.natCast_floor_eq_floor h]

theorem fieldElement_eq (text : String) (negative : Bool) (m : Nat) :
    fieldElement text negative m = elementOfInt text (if negative then -(m : Int) else m) := by
  rw [fieldElement, elementOfInt]
  cases negative with
  | false =>
    simp only [Bool.false_eq_true, if_false]
    by_cases h : m < 2 ^ 64
    · have hmod : ((m : Int) % 2 ^ 64).toNat = m := by omega
      rw [if_pos h, if_pos (by omega), UInt64.ofInt, hmod]
    · rw [if_neg h, if_neg (by omega)]
  | true =>
    simp only [if_true]
    by_cases h : m ≤ 2 ^ 63
    · have hmod : (-(m : Int) % 2 ^ 64).toNat = (2 ^ 64 - m) % 2 ^ 64 := by omega
      rw [if_pos h, if_pos (by omega), UInt64.ofInt, hmod]
    · rw [if_neg h, if_neg (by omega)]

theorem magnitude_nonneg (n : Numeral) : 0 ≤ n.magnitude := by
  unfold Numeral.magnitude
  positivity

/-- A numeral is truncated under its sign. -/
theorem truncate_value (n : Numeral) (precision : Nat) :
    truncate (n.value * 2 ^ precision) =
      if n.sign.isMinus then -(⌊n.magnitude * 2 ^ precision⌋₊ : Int)
      else ⌊n.magnitude * 2 ^ precision⌋₊ := by
  have hnonneg : 0 ≤ n.magnitude * 2 ^ precision :=
    mul_nonneg (magnitude_nonneg n) (by positivity)
  rw [Numeral.value]
  split
  · rw [neg_mul, truncate_neg hnonneg]
  · rw [truncate_of_nonneg hnonneg]

/-- A numeral is encoded as the element of the field for its truncated multiple. -/
theorem encode_of_chars {precision : Nat} (hp : precision ≤ 64) {n : Numeral} {text : String}
    (htext : text.toList = n.chars) (hlength : n.chars.length < 2 ^ 62) :
    encode precision text = elementOfInt text (truncate (n.value * 2 ^ precision)) := by
  have hblank : ∀ c ∈ ([] : List Char), Text.isBlank c = true := by simp
  have hsplit : text.toList = [] ++ (n.chars ++ []) := by rw [htext]; simp
  have hdigits : n.toDecimal.digits.length < 2 ^ 62 := by
    have hplaces := length_places_le n
    rw [digits_toDecimal, List.length_map]
    simp only [Numeral.chars, List.length_append] at hlength hplaces ⊢
    omega
  have hnegative : n.toDecimal.negative = n.sign.isMinus := rfl
  rw [encode_eq_elementOf hblank hblank hsplit,
    elementOf_magnitude? hp (isDigits_toDecimal n) hdigits, magnitudeOf_toDecimal, fieldElement_eq,
    hnegative, truncate_value]

end FixedPoint

/-! ### Columns -/

namespace Number

variable {schema : Schema} {n : Number}

/-- The text of a number is encoded as the truncated multiple of its decimal. -/
theorem encode_text (schema : Schema) (hn : n.Stored) :
    FixedPoint.encode schema.precision n.text =
      FixedPoint.elementOfInt n.text
        (FixedPoint.truncate (n.decimal * 2 ^ schema.precision)) := by
  obtain ⟨m, -, htext, hvalue⟩ := exists_numeral n
  have hlength : m.chars.length < 2 ^ 62 := by
    rw [← htext, String.length_toList]
    exact (length_text_le hn).trans_lt (by decide)
  rw [FixedPoint.encode_of_chars schema.precision_lt.le htext hlength, hvalue]

/-- An integer has nothing behind its point. -/
theorem truncate_integer (i : Int) (precision : Nat) :
    FixedPoint.truncate ((Number.integer i).decimal * 2 ^ precision) = i * 2 ^ precision := by
  have hcast : (Number.integer i).decimal * 2 ^ precision = ((i * 2 ^ precision : Int) : ℚ) := by
    push_cast
    rfl
  rw [hcast, FixedPoint.truncate_intCast]

/-- Each character of a number has its byte. -/
theorem exists_plain (n : Number) :
    ∃ plain, Latin1.encode n.text = .ok plain ∧ plain.length = n.text.length := by
  obtain ⟨m, -, htext, -⟩ := exists_numeral n
  have hsingle : ∀ c ∈ n.text.toList, c.toNat ≤ 0xFF := by
    rw [htext]
    intro c hc
    exact Numeral.toNat_le_of_mem_chars hc
  obtain ⟨plain, hplain⟩ := Latin1.exists_encode.mpr hsingle
  exact ⟨plain, hplain, Latin1.length_encode hplain⟩

/-- In the clear a number is profiled with as many bytes as it has characters. -/
theorem observeValue_text (schema : Schema) (path name : String) (n : Number)
    (lengths : NameMap Nat) :
    observeValue schema path name .passthrough (.leaf n.text) lengths =
      (.ok (), lengths.alter name (raise n.text.length)) := by
  obtain ⟨plain, hplain, hlength⟩ := exists_plain n
  simp only [observeValue, encodedLength, hplain, hlength]

/-- In the clear a number is padded to every width that holds its characters and can be
allocated. -/
theorem exists_padLeaf {w : Widths} {blocks : Nat} {name : String}
    (hwidth : w.blocks? name = some blocks) (hroom : n.text.length ≤ blocks * Block.size)
    (hsize : blocks * Block.size ≤ Block.maxAllocation) (index : Nat) (path : String) :
    ∃ padded, padLeaf w index path name .passthrough n.text = .ok padded := by
  obtain ⟨plain, hplain, hlength⟩ := exists_plain n
  rw [← hlength] at hroom
  have hfits : Block.padded plain blocks = .ok (some (Block.fill blocks plain)) :=
    Block.padded_eq_some_iff.mpr ⟨Nat.lt_of_le_pred (by decide) hsize, hroom, rfl⟩
  refine ⟨Block.fill blocks plain, ?_⟩
  simp only [padLeaf, hwidth, padValue, encodedBytes, hplain, hfits]
  rfl

/-- Every number of a document is a value of a numeric column and of one in the clear. It is written
as a numeral, and of whatever numeral a text consists, a numeric column encodes what is left of its
multiple when it is truncated: an integer with nothing left over and a floating-point number by the
decimal that rounds to it, and only an overflow is refused. A column in the clear copies it for
every party, and it is profiled and padded: two blocks are enough. -/
theorem stored_in_columns (schema : Schema) (hn : n.Stored) :
    (∀ literal read, ofLiteral? literal = some read → read.Stored) ∧
    (∃ m : Numeral, m.Written ∧ n.text.toList = m.chars ∧ m.value = n.decimal) ∧
    (∀ (m : Numeral) (text : String), text.toList = m.chars → m.chars.length < 2 ^ 62 →
      FixedPoint.encode schema.precision text =
        FixedPoint.elementOfInt text (FixedPoint.truncate (m.value * 2 ^ schema.precision))) ∧
    (∀ name, schema.classify name = .numeric →
      schema.field name (.leaf (.number n)) = .ok (.content (.numeric n.text))) ∧
    (∀ i, n = .integer i → FixedPoint.encode schema.precision n.text =
      FixedPoint.elementOfInt n.text (i * 2 ^ schema.precision)) ∧
    (∀ x, n = .double x → (x.significand ≠ 0 → x.readsBack x.shortest.1 x.shortest.2 = true) ∧
      FixedPoint.encode schema.precision n.text = FixedPoint.elementOfInt n.text
        (FixedPoint.truncate (x.decimal * 2 ^ schema.precision))) ∧
    (∀ name, schema.classify name = .passthrough →
      schema.field name (.leaf (.number n)) = .ok (.content (.passthrough n.text))) ∧
    (∀ source, (Content.passthrough n.text).share schema.precision source =
      (.ok (Triple.all n.text), source)) ∧
    (∀ path name lengths, observeValue schema path name .passthrough (.leaf n.text) lengths =
      (.ok (), lengths.alter name (raise n.text.length))) ∧
    n.text.length ≤ 2 * Block.size ∧
    ∀ w index path name blocks, w.blocks? name = some blocks →
      n.text.length ≤ blocks * Block.size → blocks * Block.size ≤ Block.maxAllocation →
        ∃ padded, padLeaf w index path name .passthrough n.text = .ok padded := by
  refine ⟨fun literal read => stored_of_ofLiteral?, exists_numeral n,
    fun m text => FixedPoint.encode_of_chars schema.precision_lt.le, fun name hname => ?_, ?_, ?_,
    fun name hname => ?_, fun _ => rfl,
    fun path name lengths => observeValue_text schema path name n lengths,
    (length_text_le hn).trans (by decide),
    fun w index path name blocks hwidth hroom hsize => exists_padLeaf hwidth hroom hsize index path⟩
  · rw [Schema.field, hname]
    rfl
  · rintro i rfl
    rw [encode_text schema hn, truncate_integer]
  · rintro x rfl
    exact ⟨Double.readsBack_shortest hn, encode_text schema hn⟩
  · rw [Schema.field, hname]
    rfl

/-- The floating-point number next to `-0.3` is truncated toward zero, to `-307` at ten bits. -/
theorem stored_in_columns_minus_three_tenths :
    let n : Number := .double ⟨true, 5404319552844595, -54⟩
    n.Stored ∧ n.text = "-0.3" ∧
      receiptSchema.field "price" (.leaf (.number n)) = .ok (.content (.numeric "-0.3")) ∧
      FixedPoint.encode 10 "-0.3" = .ok 18446744073709551309 ∧
      receiptSchema.field "date" (.leaf (.number n)) = .ok (.content (.passthrough "-0.3")) := by
  intro n
  have hstored : n.Stored := ⟨by decide, by decide, by decide, by decide⟩
  have htext : n.text = "-0.3" := by decide +kernel
  obtain ⟨-, -, -, hnumeric, -, hencode, hclear, -⟩ := stored_in_columns receiptSchema hstored
  have hdecimal : Double.decimal ⟨true, 5404319552844595, -54⟩ = -(3 / 10) := by
    have hshortest : Double.shortest ⟨true, 5404319552844595, -54⟩ = (3, -1) := by decide +kernel
    simp [Double.decimal, Double.shown, hshortest]
    norm_num
  have htruncate : FixedPoint.truncate (-(3 / 10) * 2 ^ 10) = -307 := by
    rw [neg_mul, FixedPoint.truncate_neg (by norm_num)]
    norm_num
  refine ⟨hstored, htext, ?_, ?_, ?_⟩
  · rw [← htext]
    exact hnumeric "price" (by decide)
  · have hword := (hencode _ rfl).2
    have hprecision : receiptSchema.precision = 10 := rfl
    rw [htext, hprecision, hdecimal, htruncate] at hword
    rw [hword]
    decide
  · rw [← htext]
    exact hclear "date" (by decide)

end Number

end TriShare
