import Mathlib.Algebra.Order.Floor.Semifield
import Mathlib.Data.Int.ModEq
import Mathlib.Data.Rat.Floor
import Mathlib.Tactic
import TriShare.Proofs.Number.Numeral
import TriShare.Proofs.Text.Size
/-!
Fixed-point numbers are exact. The point that the exponent has moved, the two cut-offs, the bounded
words and the doubling of the fraction together compute the number's multiple of a power of two,
rounded down, whenever that fits into the field, and report an overflow otherwise. Beyond a
precision of 64 bits the fraction's word drops its first bits, so that only numbers below one are
left, modulo `2 ^ 64`.
-/

namespace TriShare.FixedPoint

open Decimal

/-- The number of a row of digits whose point stands behind the first `point` of them. -/
def valueAt (ds : List Nat) (point : Int) : ℚ := ofDigits ds * 10 ^ (point - ds.length)

/-- The number with these digits before and after its point. -/
def valueOf (whole fraction : List Nat) : ℚ :=
  ofDigits whole + ofDigits fraction / 10 ^ fraction.length

/-! ### The bounded word -/

theorem fit?_eq (n : Nat) : fit? n = if n < 2 ^ 128 then some n else none := rfl

theorem fit?_eq_some {n m : Nat} (h : fit? n = some m) : m = n := by
  unfold fit? at h
  split at h
  · exact (Option.some.inj h).symm
  · exact absurd h (by simp)

theorem le_of_fit?_eq_none {n : Nat} (h : fit? n = none) : 2 ^ 128 ≤ n := by
  rw [fit?_eq] at h
  split at h
  · exact absurd h (by simp)
  · next hn => exact Nat.not_lt.mp hn

theorem fit?_of_le {n : Nat} (h : 2 ^ 128 ≤ n) : fit? n = none := if_neg (Nat.not_lt.mpr h)

/-- A sum that fits has a first summand that fits, so only the sum has to be looked at. -/
theorem fit?_bind_add (a b : Nat) : ((fit? a).bind fun a => fit? (a + b)) = fit? (a + b) := by
  by_cases h : a < 2 ^ 128
  · rw [fit?_eq a, if_pos h, Option.bind_some]
  · have ha := Nat.not_lt.mp h
    rw [fit?_of_le ha, fit?_of_le (Nat.le_trans ha (Nat.le_add_right a b)), Option.bind_none]

/-- Digit by digit, the word is run out of exactly when the whole number is beyond it. -/
theorem accumulate?_eq {ds : List Nat} : ∀ {n : Nat}, n < 2 ^ 128 →
    accumulate? ds n = fit? (n * 10 ^ ds.length + ofDigits ds) := by
  induction ds with
  | nil =>
    intro n h
    rw [accumulate?, fit?_eq, if_pos (by simpa [ofDigits] using h)]
    simp [ofDigits]
  | cons d ds ih =>
    intro n _
    have hvalue : n * 10 ^ (d :: ds).length + ofDigits (d :: ds)
        = (n * 10 + d) * 10 ^ ds.length + ofDigits ds := by
      rw [ofDigits_cons, List.length_cons, pow_succ]
      ring
    rw [accumulate?, fit?_bind_add, hvalue]
    by_cases h : n * 10 + d < 2 ^ 128
    · rw [fit?_eq, if_pos h]
      exact ih h
    · have hgrow : n * 10 + d ≤ (n * 10 + d) * 10 ^ ds.length :=
        Nat.le_mul_of_pos_right _ (by positivity)
      rw [fit?_of_le (Nat.not_lt.mp h), fit?_of_le]
      omega

/-! ### The integer part -/

theorem whole?_eq_some {ds : List Nat} {n : Nat} (h : whole? ds = some n) : n = ofDigits ds := by
  simp only [whole?] at h
  split at h
  · exact absurd h (by simp)
  · rw [accumulate?_eq (by decide), Nat.zero_mul, Nat.zero_add, ofDigits_dropWhile] at h
    exact fit?_eq_some h

/-- Digits that are too many, or run out of the word, are those of a number beyond the field. -/
theorem le_of_whole?_eq_none {ds : List Nat} (h : whole? ds = none) : 2 ^ 64 ≤ ofDigits ds := by
  simp only [whole?] at h
  rw [← ofDigits_dropWhile]
  split at h
  · next hlen =>
    cases hds : ds.dropWhile (· == 0) with
    | nil => rw [hds] at hlen; exact absurd hlen (Nat.not_lt_zero _)
    | cons d rest =>
      have hd : d ≠ 0 := by
        have := List.head_dropWhile_not (· == 0) (l := ds) (by rw [hds]; exact List.cons_ne_nil _ _)
        simpa [hds] using this
      rw [hds, List.length_cons, maxWholeDigits] at hlen
      calc 2 ^ 64 ≤ 10 ^ 39 := by norm_num
        _ ≤ 10 ^ rest.length := Nat.pow_le_pow_right (by decide) (by omega)
        _ ≤ ofDigits (d :: rest) := le_ofDigits hd
  · rw [accumulate?_eq (by decide), Nat.zero_mul, Nat.zero_add] at h
    exact Nat.le_trans (by norm_num) (le_of_fit?_eq_none h)

/-! ### Scaling both parts -/

theorem scale?_eq (precision : Nat) (whole fraction : List Nat) :
    scale? precision (whole, fraction) = (whole? whole).bind fun n =>
      fit? (n * 2 ^ precision + (fractionBits fraction precision).toNat) := by
  rw [scale?, Option.bind_assoc]
  simp only [Nat.shiftLeft_eq, fit?_bind_add]

theorem scale?_eq_some {precision m : Nat} {whole fraction : List Nat}
    (hf : IsDigits fraction) (h : scale? precision (whole, fraction) = some m) :
    m = ofDigits whole * 2 ^ precision
      + ofDigits fraction * 2 ^ precision / 10 ^ fraction.length % 2 ^ 64 := by
  rw [scale?_eq] at h
  obtain ⟨n, hn, h⟩ := Option.bind_eq_some_iff.mp h
  rw [fit?_eq_some h, whole?_eq_some hn, toNat_fractionBits hf]

/-- When scaling runs out of the word, the integer part alone is beyond the field. -/
theorem le_of_scale?_eq_none {precision : Nat} {whole fraction : List Nat}
    (h : scale? precision (whole, fraction) = none) : 2 ^ 64 ≤ ofDigits whole * 2 ^ precision := by
  rw [scale?_eq] at h
  cases hn : whole? whole with
  | none =>
    calc 2 ^ 64 ≤ ofDigits whole := le_of_whole?_eq_none hn
      _ ≤ ofDigits whole * 2 ^ precision := Nat.le_mul_of_pos_right _ (by positivity)
  | some n =>
    rw [hn, Option.bind_some] at h
    have hle := le_of_fit?_eq_none h
    have hlt := (fractionBits fraction precision).toNat_lt
    rw [← whole?_eq_some hn]
    omega

/-! ### Cutting the digits at the point -/

theorem valueOf_nil_left (k : Nat) (ds : List Nat) :
    valueOf [] (List.replicate k 0 ++ ds) = ofDigits ds * 10 ^ (-(k : Int) - ds.length) := by
  have hten : (10 : ℚ) ≠ 0 := by norm_num
  rw [valueOf, ofDigits_append, ofDigits_replicate_zero, Nat.zero_mul, Nat.zero_add,
    List.length_append, List.length_replicate, zpow_sub₀ hten, zpow_neg, zpow_natCast,
    zpow_natCast, pow_add]
  simp only [ofDigits, List.foldl_nil, Nat.cast_zero, zero_add]
  field_simp

theorem valueOf_nil_right (k : Nat) (ds : List Nat) :
    valueOf (ds ++ List.replicate k 0) [] = ofDigits ds * 10 ^ k := by
  rw [valueOf, ofDigits_append, ofDigits_replicate_zero, List.length_replicate]
  simp [ofDigits]

theorem valueOf_take_drop {k : Nat} {ds : List Nat} (h : k ≤ ds.length) :
    valueOf (ds.take k) (ds.drop k) = ofDigits ds * 10 ^ ((k : Int) - ds.length) := by
  have hten : (10 : ℚ) ≠ 0 := by norm_num
  have hsplit : ofDigits ds =
      ofDigits (ds.take k) * 10 ^ (ds.length - k) + ofDigits (ds.drop k) := by
    conv_lhs => rw [← List.take_append_drop k ds, ofDigits_append, List.length_drop]
  have hexp : (k : Int) - ds.length = -((ds.length - k : Nat) : Int) := by omega
  rw [valueOf, hsplit, List.length_drop, hexp, zpow_neg, zpow_natCast]
  push_cast
  field_simp

/-- The digits before and after the point make the number, except that a number with too many
zeros after its point is cut down to nothing. -/
theorem valueAt_of_split? {ds whole fraction : List Nat} {point : Int} (hd : IsDigits ds)
    (h : split? ds point = some (whole, fraction)) :
    valueAt ds point = valueOf whole fraction ∨
      (whole = [] ∧ fraction = [] ∧ valueAt ds point < 10 ^ (-64 : Int)) := by
  have hten : (1 : ℚ) < 10 := by norm_num
  unfold split? at h
  split at h
  · next hpoint =>
    split at h
    · next hzeros =>
      right
      obtain ⟨rfl, rfl⟩ := Prod.mk.inj (Option.some.inj h)
      refine ⟨rfl, rfl, ?_⟩
      have hlt : (ofDigits ds : ℚ) < 10 ^ ds.length := by exact_mod_cast ofDigits_lt hd
      calc valueAt ds point < 10 ^ ds.length * 10 ^ (point - ds.length) :=
            mul_lt_mul_of_pos_right hlt (by positivity)
        _ = 10 ^ point := by rw [← zpow_natCast, ← zpow_add₀ (by norm_num)]; congr 1; ring
        _ ≤ 10 ^ (-64 : Int) := by
          refine zpow_le_zpow_right₀ hten.le ?_
          simp only [maxLeadingZeros] at hzeros
          omega
    · left
      obtain ⟨rfl, rfl⟩ := Prod.mk.inj (Option.some.inj h)
      rw [valueOf_nil_left, valueAt]
      congr 2
      omega
  · next hpoint =>
    left
    split at h
    · next hlen =>
      split at h
      · exact absurd h (by simp)
      · obtain ⟨rfl, rfl⟩ := Prod.mk.inj (Option.some.inj h)
        rw [valueOf_nil_right, valueAt, ← zpow_natCast]
        congr 2
        omega
    · next hlen =>
      obtain ⟨rfl, rfl⟩ := Prod.mk.inj (Option.some.inj h)
      rw [valueOf_take_drop (by omega), valueAt]
      congr 2
      omega

theorem isDigits_of_split? {ds whole fraction : List Nat} {point : Int} (hd : IsDigits ds)
    (h : split? ds point = some (whole, fraction)) : IsDigits fraction := by
  unfold split? at h
  split at h
  · split at h
    · obtain ⟨-, rfl⟩ := Prod.mk.inj (Option.some.inj h)
      exact IsDigits.replicate_zero 0
    · obtain ⟨-, rfl⟩ := Prod.mk.inj (Option.some.inj h)
      exact (IsDigits.replicate_zero _).append hd
  · split at h
    · split at h
      · exact absurd h (by simp)
      · obtain ⟨-, rfl⟩ := Prod.mk.inj (Option.some.inj h)
        exact IsDigits.replicate_zero 0
    · obtain ⟨-, rfl⟩ := Prod.mk.inj (Option.some.inj h)
      exact fun d hmem => hd d (List.mem_of_mem_drop hmem)

/-- Where no digits are kept the number is beyond every field. -/
theorem le_valueAt_of_split?_eq_none {ds : List Nat} {point : Int} (hne : ofDigits ds ≠ 0)
    (h : split? ds point = none) : (2 : ℚ) ^ 64 ≤ valueAt ds point := by
  have hone : (1 : ℚ) ≤ ofDigits ds := by exact_mod_cast Nat.one_le_iff_ne_zero.mpr hne
  unfold split? at h
  split at h
  · split at h <;> exact absurd h (by simp)
  · split at h
    · split at h
      · next hlen =>
        simp only [maxWholeDigits] at hlen
        calc (2 : ℚ) ^ 64 ≤ 1 * 10 ^ (39 : Int) := by norm_num
          _ ≤ ofDigits ds * 10 ^ (point - ds.length) :=
            mul_le_mul hone (zpow_le_zpow_right₀ (by norm_num) (by omega)) (by positivity)
              (by positivity)
      · exact absurd h (by simp)
    · exact absurd h (by simp)

/-! ### Rounding down -/

theorem floor_valueOf (whole fraction : List Nat) (precision : Nat) :
    ⌊valueOf whole fraction * 2 ^ precision⌋₊ = ofDigits whole * 2 ^ precision
      + ofDigits fraction * 2 ^ precision / 10 ^ fraction.length := by
  have hsplit : valueOf whole fraction * 2 ^ precision
      = ((ofDigits fraction * 2 ^ precision : Nat) : ℚ) / ((10 ^ fraction.length : Nat) : ℚ)
        + ((ofDigits whole * 2 ^ precision : Nat) : ℚ) := by
    rw [valueOf]
    push_cast
    ring
  rw [hsplit, Nat.floor_add_natCast (by positivity), Nat.floor_div_eq_div, Nat.add_comm]

theorem one_le_valueOf_iff {whole fraction : List Nat} (hf : IsDigits fraction) :
    1 ≤ valueOf whole fraction ↔ 1 ≤ ofDigits whole := by
  have hlt : (ofDigits fraction : ℚ) < 10 ^ fraction.length := by exact_mod_cast ofDigits_lt hf
  have hone : (ofDigits fraction : ℚ) / 10 ^ fraction.length < 1 :=
    (div_lt_one (by positivity)).mpr hlt
  have hnonneg : (0 : ℚ) ≤ (ofDigits fraction : ℚ) / 10 ^ fraction.length := by positivity
  unfold valueOf
  constructor
  · intro h
    have hpos : (0 : ℚ) < ofDigits whole := by linarith
    exact_mod_cast hpos
  · intro h
    have hcast : (1 : ℚ) ≤ ofDigits whole := by exact_mod_cast h
    linarith

/-- What the two parts of a number's scaled magnitude have to do with the number. -/
structure Scaled (precision : Nat) (value : ℚ) (whole rest : Nat) : Prop where
  floor : ⌊value * 2 ^ precision⌋₊ = whole * 2 ^ precision + rest
  rest_lt : rest < 2 ^ precision
  one_le_iff : 1 ≤ value ↔ 1 ≤ whole

theorem scaled_valueOf {whole fraction : List Nat} (hf : IsDigits fraction) (precision : Nat) :
    Scaled precision (valueOf whole fraction) (ofDigits whole)
      (ofDigits fraction * 2 ^ precision / 10 ^ fraction.length) where
  floor := floor_valueOf whole fraction precision
  rest_lt := by
    refine Nat.div_lt_of_lt_mul ?_
    exact Nat.mul_lt_mul_of_pos_right (ofDigits_lt hf) (by positivity)
  one_le_iff := one_le_valueOf_iff hf

/-- A number below the finest step of every precision has nothing left when it is scaled. -/
theorem scaled_of_lt {precision : Nat} (hp : precision ≤ 127) {value : ℚ} (hnonneg : 0 ≤ value)
    (hlt : value < 10 ^ (-64 : Int)) : Scaled precision value 0 0 where
  floor := by
    rw [Nat.zero_mul, Nat.floor_eq_zero]
    calc value * 2 ^ precision ≤ value * 2 ^ 127 :=
          mul_le_mul_of_nonneg_left (pow_le_pow_right₀ (by norm_num) hp) hnonneg
      _ < 10 ^ (-64 : Int) * 2 ^ 127 := mul_lt_mul_of_pos_right hlt (by norm_num)
      _ < 1 := by norm_num
  rest_lt := by positivity
  one_le_iff := by
    have hsmall : (10 : ℚ) ^ (-64 : Int) < 1 := by norm_num
    constructor
    · intro h; linarith
    · intro h; omega

theorem valueAt_nonneg (ds : List Nat) (point : Int) : 0 ≤ valueAt ds point := by
  unfold valueAt
  positivity

theorem scaled_of_split? {precision : Nat} (hp : precision ≤ 127) {ds whole fraction : List Nat}
    {point : Int} (hd : IsDigits ds) (h : split? ds point = some (whole, fraction)) :
    Scaled precision (valueAt ds point) (ofDigits whole)
      (ofDigits fraction * 2 ^ precision / 10 ^ fraction.length) := by
  rcases valueAt_of_split? hd h with hv | ⟨rfl, rfl, hlt⟩
  · rw [hv]
    exact scaled_valueOf (isDigits_of_split? hd h) precision
  · have hzero : ofDigits [] = 0 := rfl
    rw [hzero, Nat.zero_mul, Nat.zero_div]
    exact scaled_of_lt hp (valueAt_nonneg ds point) hlt

/-! ### The saturated exponent -/

theorem split?_of_far_left {ds : List Nat} {point : Int} (h : point < -64) :
    split? ds point = some ([], []) := by
  rw [split?, if_pos (by omega), if_pos]
  simp only [maxLeadingZeros]
  omega

theorem split?_of_far_right {ds : List Nat} {point : Int} (h : ds.length + 39 < point) :
    split? ds point = none := by
  rw [split?, if_neg (by omega), if_pos (by omega), if_pos]
  simp only [maxWholeDigits]
  omega

theorem saturate_eq (e : Int) : saturate e = max (-2 ^ 63) (min e (2 ^ 63 - 1)) := rfl

/-- Beyond the ends of the exponent's word the point is too far away to matter, since there are
fewer digits than could bring it back. -/
theorem split?_pointOf {d : Decimal} (h : d.digits.length < 2 ^ 62) :
    split? d.digits (pointOf d) = split? d.digits (d.whole.length + d.exponent) := by
  have hwhole : d.whole.length ≤ d.digits.length := by
    rw [Decimal.digits, List.length_append]
    exact Nat.le_add_right _ _
  unfold pointOf
  by_cases hlow : d.exponent < -2 ^ 63
  · have hsat : saturate d.exponent = -2 ^ 63 := by rw [saturate_eq]; omega
    rw [hsat, split?_of_far_left (by omega), split?_of_far_left (by omega)]
  · by_cases hhigh : 2 ^ 63 - 1 < d.exponent
    · have hsat : saturate d.exponent = 2 ^ 63 - 1 := by rw [saturate_eq]; omega
      rw [hsat, split?_of_far_right (by omega), split?_of_far_right (by omega)]
    · have hsat : saturate d.exponent = d.exponent := by rw [saturate_eq]; omega
      rw [hsat]

/-! ### The scaled magnitude -/

/-- The number of a decimal without its sign. -/
def magnitudeOf (d : Decimal) : ℚ := valueAt d.digits (d.whole.length + d.exponent)

theorem scaled_zero (precision : Nat) : Scaled precision 0 0 0 where
  floor := by simp
  rest_lt := by positivity
  one_le_iff := by simp

theorem magnitudeOf_eq_zero {d : Decimal} (h : d.isZero = true) : magnitudeOf d = 0 := by
  rw [magnitudeOf, valueAt, (ofDigits_eq_zero_iff d.digits).mpr h, Nat.cast_zero, zero_mul]

/-- A magnitude that is computed is that of the number, but for what the fraction's word drops. -/
theorem magnitude?_eq_some {precision m : Nat} (hp : precision ≤ 127) {d : Decimal}
    (hd : IsDigits d.digits) (hlen : d.digits.length < 2 ^ 62)
    (h : magnitude? precision d = some m) : ∃ whole rest,
      m = whole * 2 ^ precision + rest % 2 ^ 64 ∧ Scaled precision (magnitudeOf d) whole rest := by
  unfold magnitude? at h
  split at h
  · next hzero =>
    refine ⟨0, 0, ?_, ?_⟩
    · rw [← Option.some.inj h]
      simp
    · rw [magnitudeOf_eq_zero hzero]
      exact scaled_zero precision
  · obtain ⟨⟨whole, fraction⟩, hsplit, hscale⟩ := Option.bind_eq_some_iff.mp h
    rw [split?_pointOf hlen] at hsplit
    exact ⟨_, _, scale?_eq_some (isDigits_of_split? hd hsplit) hscale,
      scaled_of_split? hp hd hsplit⟩

/-- Where no magnitude is computed the number is beyond the field at every precision. -/
theorem magnitude?_eq_none {precision : Nat} (hp : precision ≤ 127) {d : Decimal}
    (hd : IsDigits d.digits) (hlen : d.digits.length < 2 ^ 62)
    (h : magnitude? precision d = none) :
    2 ^ 64 ≤ ⌊magnitudeOf d * 2 ^ precision⌋₊ ∧ 1 ≤ magnitudeOf d := by
  unfold magnitude? at h
  split at h
  · exact absurd h (by simp)
  · next hzero =>
    have hne : ofDigits d.digits ≠ 0 := fun hz => hzero ((ofDigits_eq_zero_iff _).mp hz)
    rw [split?_pointOf hlen] at h
    cases hsplit : split? d.digits (d.whole.length + d.exponent) with
    | none =>
      have hle : (2 : ℚ) ^ 64 ≤ magnitudeOf d := le_valueAt_of_split?_eq_none hne hsplit
      have hone : (1 : ℚ) ≤ 2 ^ precision := one_le_pow₀ (by norm_num)
      refine ⟨Nat.le_floor ?_, le_trans (by norm_num) hle⟩
      calc ((2 ^ 64 : Nat) : ℚ) = 2 ^ 64 * 1 := by norm_num
        _ ≤ magnitudeOf d * 2 ^ precision :=
          mul_le_mul hle hone (by norm_num) (le_trans (by norm_num) hle)
    | some parts =>
      obtain ⟨whole, fraction⟩ := parts
      rw [hsplit, Option.bind_some] at h
      have hle := le_of_scale?_eq_none h
      have hscaled : Scaled precision (magnitudeOf d) _ _ := scaled_of_split? hp hd hsplit
      refine ⟨?_, hscaled.one_le_iff.mpr ?_⟩
      · rw [hscaled.floor]
        exact Nat.le_trans hle (Nat.le_add_right _ _)
      · by_contra hzero
        rw [Nat.lt_one_iff.mp (Nat.not_le.mp hzero), Nat.zero_mul] at hle
        exact absurd hle (by decide)

/-! ### The element of the field -/

/-- What a sign and a magnitude come to: the magnitude itself below `2 ^ 64`, its two's complement
down to `-2 ^ 63`, and an overflow everywhere else. -/
def fieldElement (text : String) (negative : Bool) (magnitude : Nat) : Except FieldError UInt64 :=
  if negative then
    if magnitude ≤ 2 ^ 63 then .ok (UInt64.ofNat ((2 ^ 64 - magnitude) % 2 ^ 64))
    else .error (.overflow text)
  else if magnitude < 2 ^ 64 then .ok (UInt64.ofNat magnitude)
  else .error (.overflow text)

/-- The element of the field for what is computed of a magnitude. -/
def elementOf (text : String) (negative : Bool) (magnitude? : Option Nat) :
    Except FieldError UInt64 :=
  match magnitude?.bind (element? negative) with
  | none => .error (.overflow text)
  | some n => .ok n

theorem neg_ofNat {m : Nat} (h : m ≤ 2 ^ 63) :
    -UInt64.ofNat m = UInt64.ofNat ((2 ^ 64 - m) % 2 ^ 64) := by
  have hm : m % 2 ^ 64 = m := Nat.mod_eq_of_lt (by omega)
  have hword : UInt64.size = 2 ^ 64 := rfl
  apply UInt64.toNat_inj.mp
  rw [UInt64.toNat_neg, UInt64.toNat_ofNat', UInt64.toNat_ofNat', hm, Nat.mod_mod, hword]

theorem element?_eq (negative : Bool) (m : Nat) : element? negative m =
    if negative then if m ≤ 2 ^ 63 then some (-UInt64.ofNat m) else none
    else if m < 2 ^ 64 then some (UInt64.ofNat m) else none := rfl

theorem elementOf_some (text : String) (negative : Bool) (m : Nat) :
    elementOf text negative (some m) = fieldElement text negative m := by
  rw [elementOf, fieldElement, Option.bind_some, element?_eq]
  cases negative with
  | false =>
    rw [if_neg Bool.false_ne_true, if_neg Bool.false_ne_true]
    by_cases h : m < 2 ^ 64
    · rw [if_pos h, if_pos h]
    · rw [if_neg h, if_neg h]
  | true =>
    rw [if_pos rfl, if_pos rfl]
    by_cases h : m ≤ 2 ^ 63
    · rw [if_pos h, if_pos h, neg_ofNat h]
    · rw [if_neg h, if_neg h]

theorem elementOf_none (text : String) (negative : Bool) :
    elementOf text negative none = .error (.overflow text) := rfl

theorem fieldElement_of_le (text : String) (negative : Bool) {m : Nat} (h : 2 ^ 64 ≤ m) :
    fieldElement text negative m = .error (.overflow text) := by
  unfold fieldElement
  cases negative with
  | false => rw [if_neg (by decide), if_neg (by omega)]
  | true => rw [if_pos rfl, if_neg (by omega)]

theorem modEq_of_fieldElement {text : String} {negative : Bool} {m : Nat} {w : UInt64}
    (h : fieldElement text negative m = .ok w) :
    (w.toNat : Int) ≡ (if negative then -(m : Int) else m) [ZMOD 2 ^ 64] := by
  unfold fieldElement at h
  cases negative with
  | false =>
    rw [if_neg Bool.false_ne_true] at h
    split at h
    · next hm =>
      rw [← Except.ok.inj h, UInt64.toNat_ofNat', Nat.mod_eq_of_lt hm]
      exact Int.ModEq.refl _
    · exact absurd h (by simp)
  | true =>
    rw [if_pos rfl] at h
    split at h
    · next hm =>
      have hcast : (((2 ^ 64 - m) % 2 ^ 64 % 2 ^ 64 : Nat) : Int) =
          (2 ^ 64 - (m : Int)) % 2 ^ 64 := by
        omega
      rw [← Except.ok.inj h, UInt64.toNat_ofNat', hcast, if_pos rfl]
      refine (Int.mod_modEq _ _).trans ?_
      exact Int.modEq_iff_dvd.mpr ⟨-1, by ring⟩
    · exact absurd h (by simp)

/-- Up to 64 bits of precision nothing is dropped. -/
theorem elementOf_magnitude? {precision : Nat} (hp : precision ≤ 64) {d : Decimal}
    (hd : IsDigits d.digits) (hlen : d.digits.length < 2 ^ 62) (text : String) :
    elementOf text d.negative (magnitude? precision d)
      = fieldElement text d.negative ⌊magnitudeOf d * 2 ^ precision⌋₊ := by
  have hp' : precision ≤ 127 := by omega
  cases h : magnitude? precision d with
  | none =>
    rw [elementOf_none, fieldElement_of_le]
    exact (magnitude?_eq_none hp' hd hlen h).1
  | some m =>
    obtain ⟨whole, rest, rfl, hscaled⟩ := magnitude?_eq_some hp' hd hlen h
    have hrest : rest < 2 ^ 64 :=
      Nat.lt_of_lt_of_le hscaled.rest_lt (Nat.pow_le_pow_right (by decide) hp)
    rw [elementOf_some, hscaled.floor, Nat.mod_eq_of_lt hrest]

/-- Beyond 64 bits a number that is not below one is too large. -/
theorem elementOf_magnitude?_of_le {precision : Nat} (hp : precision ≤ 127) (hp' : 64 < precision)
    {d : Decimal} (hd : IsDigits d.digits) (hlen : d.digits.length < 2 ^ 62) (text : String)
    (hone : 1 ≤ magnitudeOf d) :
    elementOf text d.negative (magnitude? precision d) = .error (.overflow text) := by
  cases h : magnitude? precision d with
  | none => rfl
  | some m =>
    obtain ⟨whole, rest, rfl, hscaled⟩ := magnitude?_eq_some hp hd hlen h
    rw [elementOf_some, fieldElement_of_le]
    calc 2 ^ 64 ≤ 1 * 2 ^ precision := by
          rw [Nat.one_mul]
          exact Nat.pow_le_pow_right (by decide) (by omega)
      _ ≤ whole * 2 ^ precision := Nat.mul_le_mul_right _ (hscaled.one_le_iff.mp hone)
      _ ≤ whole * 2 ^ precision + rest % 2 ^ 64 := Nat.le_add_right _ _

/-- Beyond 64 bits the bits of a number below one are taken modulo `2 ^ 64`. -/
theorem elementOf_magnitude?_of_lt {precision : Nat} (hp : precision ≤ 127)
    {d : Decimal} (hd : IsDigits d.digits) (hlen : d.digits.length < 2 ^ 62) (text : String)
    (hlt : magnitudeOf d < 1) :
    elementOf text d.negative (magnitude? precision d)
      = fieldElement text d.negative (⌊magnitudeOf d * 2 ^ precision⌋₊ % 2 ^ 64) := by
  cases h : magnitude? precision d with
  | none =>
    have hone := (magnitude?_eq_none hp hd hlen h).2
    exact absurd hone (not_le.mpr hlt)
  | some m =>
    obtain ⟨whole, rest, rfl, hscaled⟩ := magnitude?_eq_some hp hd hlen h
    have hwhole : whole = 0 := by
      by_contra hne
      exact absurd (hscaled.one_le_iff.mpr (Nat.one_le_iff_ne_zero.mpr hne)) (not_le.mpr hlt)
    rw [elementOf_some, hscaled.floor, hwhole]
    simp

/-! ### Encoding a numeral -/

theorem digits_toDecimal (n : Numeral) : n.toDecimal.digits = (n.whole ++ n.places).map Fin.val :=
  (List.map_append).symm

theorem isDigits_toDecimal (n : Numeral) : IsDigits n.toDecimal.digits := by
  rw [digits_toDecimal]
  intro d hd
  obtain ⟨d, -, rfl⟩ := List.mem_map.mp hd
  exact Nat.le_of_lt_succ d.isLt

theorem length_places_le (n : Numeral) : (n.whole ++ n.places).length ≤ n.mantissa.length := by
  unfold Numeral.places Numeral.mantissa
  cases n.fraction with
  | none => simp [digitRow]
  | some ds => simp [digitRow]

/-- A numeral has no more digits before its power than the text around it has bytes. -/
theorem length_toDecimal_le {n : Numeral} {before after : List Char} {text : String}
    (h : text.toList = before ++ (n.chars ++ after)) :
    n.toDecimal.digits.length ≤ text.utf8ByteSize := by
  have hsize := Text.length_toList_le text
  have hmantissa := length_places_le n
  rw [h] at hsize
  rw [digits_toDecimal, List.length_map]
  simp only [Numeral.chars, List.length_append] at hsize hmantissa ⊢
  omega

theorem magnitudeOf_toDecimal (n : Numeral) : magnitudeOf n.toDecimal = n.magnitude := by
  have hten : (10 : ℚ) ≠ 0 := by norm_num
  have hvalue : (n.toDecimal.whole.length : Int) + n.toDecimal.exponent - n.toDecimal.digits.length
      = n.exponent - n.places.length := by
    simp only [Numeral.toDecimal, Decimal.digits, List.length_append, List.length_map]
    push_cast
    ring
  rw [magnitudeOf, valueAt, hvalue, Decimal.digits, ofDigits_append, zpow_sub₀ hten, zpow_natCast]
  simp only [Numeral.toDecimal, Numeral.magnitude, rowValue, List.length_map]
  push_cast
  field_simp

theorem encode_eq_elementOf {n : Numeral} {before after : List Char} {text : String}
    (hb : ∀ c ∈ before, Text.isBlank c = true) (ha : ∀ c ∈ after, Text.isBlank c = true)
    (ht : text.toList = before ++ (n.chars ++ after)) (precision : Nat) :
    encode precision text
      = elementOf text n.toDecimal.negative (magnitude? precision n.toDecimal) := by
  rw [encode, ht, trim_append hb ha (chars_ne_nil n) (isBlank_chars n), parse?_chars]
  rfl

/-- Encoding is exact for every numeral, with white space around it or not: the magnitude is the
number's multiple of a power of two, rounded down. Up to 64 bits of precision it is encoded if and
only if it fits under its sign. Beyond them numbers that are not below one overflow, and of the
others the magnitude counts modulo `2 ^ 64`. What is encoded is always congruent to the number. -/
theorem encode_numeral {precision : Nat} (hp : precision ≤ 127) (n : Numeral)
    {before after : List Char} (hb : ∀ c ∈ before, Text.isBlank c = true)
    (ha : ∀ c ∈ after, Text.isBlank c = true) {text : String}
    (ht : text.toList = before ++ (n.chars ++ after)) (hsize : text.utf8ByteSize < 2 ^ 62) :
    (precision ≤ 64 → encode precision text
      = fieldElement text n.sign.isMinus ⌊n.magnitude * 2 ^ precision⌋₊) ∧
    (64 < precision → 1 ≤ n.magnitude → encode precision text = .error (.overflow text)) ∧
    (64 < precision → n.magnitude < 1 → encode precision text
      = fieldElement text n.sign.isMinus (⌊n.magnitude * 2 ^ precision⌋₊ % 2 ^ 64)) ∧
    ∀ w, encode precision text = .ok w → (w.toNat : Int)
      ≡ (if n.sign.isMinus then -(⌊n.magnitude * 2 ^ precision⌋₊ : Int)
          else ⌊n.magnitude * 2 ^ precision⌋₊) [ZMOD 2 ^ 64] := by
  have hd := isDigits_toDecimal n
  have hlen := Nat.lt_of_le_of_lt (length_toDecimal_le ht) hsize
  have hneg : n.toDecimal.negative = n.sign.isMinus := rfl
  rw [encode_eq_elementOf hb ha ht precision, ← magnitudeOf_toDecimal n, ← hneg]
  have hlow : precision ≤ 64 → _ := fun h => elementOf_magnitude? h hd hlen text
  have hbig : 64 < precision → _ := fun h => elementOf_magnitude?_of_le hp h hd hlen text
  have hsmall := elementOf_magnitude?_of_lt hp hd hlen text
  refine ⟨hlow, hbig, fun _ => hsmall, fun w hw => ?_⟩
  by_cases h : precision ≤ 64
  · rw [hlow h] at hw
    exact modEq_of_fieldElement hw
  · by_cases hone : 1 ≤ magnitudeOf n.toDecimal
    · rw [hbig (Nat.not_le.mp h) hone] at hw
      exact absurd hw (by simp)
    · rw [hsmall (not_le.mp hone)] at hw
      refine (modEq_of_fieldElement hw).trans ?_
      have hmod : ((⌊magnitudeOf n.toDecimal * 2 ^ precision⌋₊ % 2 ^ 64 : Nat) : Int)
          ≡ ⌊magnitudeOf n.toDecimal * 2 ^ precision⌋₊ [ZMOD 2 ^ 64] := by
        push_cast
        exact Int.mod_modEq _ _
      split
      · exact hmod.neg
      · exact hmod

/-- Truncation is toward zero: at ten bits `-0.3` is `-307`, not `-308`. -/
theorem encode_minus_three_tenths :
    (10 ≤ 127 ∧ (∀ c ∈ [' '], Text.isBlank c = true) ∧ " -3e-1".utf8ByteSize < 2 ^ 62) ∧
      encode 10 " -3e-1" = .ok 18446744073709551309 := by
  have hblank : ∀ c ∈ [' '], Text.isBlank c = true := by
    intro c hc
    obtain rfl := List.mem_singleton.mp hc
    rfl
  have hsize : " -3e-1".utf8ByteSize < 2 ^ 62 := by decide
  refine ⟨⟨by decide, hblank, hsize⟩, ?_⟩
  let n : Numeral := ⟨.minus, [3], none, some ⟨false, .minus, [1], by decide⟩, by decide⟩
  have htext : " -3e-1".toList = [' '] ++ (n.chars ++ []) := rfl
  have hfloor : ⌊n.magnitude * 2 ^ 10⌋₊ = 307 := by
    have hvalue : n.magnitude = 3 / 10 := by
      simp [n, Numeral.magnitude, Numeral.exponent, Numeral.places, TenPower.value, Sign.isMinus,
        rowValue, ofDigits]
      norm_num
    rw [hvalue, Nat.floor_eq_iff (by norm_num)]
    norm_num
  have h := (encode_numeral (by decide : 10 ≤ 127) n hblank (by simp) htext hsize).1 (by decide)
  rw [h, hfloor]
  rfl

end TriShare.FixedPoint
