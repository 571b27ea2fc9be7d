import TriShare.Number.Basic
import TriShare.Proofs.Number.Written
/-!
Rounding to a floating-point number gives a number in normal form, so that every number that is
read from a literal is one of 64 bits (`Number.stored_of_ofLiteral?`).
-/

namespace TriShare

namespace Double

variable {num den : Nat} {x : Double} {negative : Bool}

theorem normal_zero (negative : Bool) : (zero negative).Normal where
  significand_lt := Nat.two_pow_pos 53
  exponent_ge := le_rfl
  exponent_le := (by decide : minExponent ≤ maxExponent)
  le_significand h := absurd h (lt_irrefl _)

/-! ### The exponent of a fraction -/

/-- The significand has all of its bits at an exponent. -/
structure Filled (num den : Nat) (e : Int) : Prop where
  le : (2 : ℚ) ^ 52 ≤ num / den * 2 ^ (-e)
  lt : (num : ℚ) / den * 2 ^ (-e) < 2 ^ 53

/-- The exponent before the least one is respected. -/
def exactExponent (num den : Nat) : Int :=
  let guess : Int := (num.log2 : Int) - den.log2 - 52
  if (scale num den guess).1 / (scale num den guess).2 < leadingOne then guess - 1 else guess

theorem exponentOf_eq (num den : Nat) :
    exponentOf num den = max (exactExponent num den) minExponent := rfl

/-- From the lengths of both parts the exponent is known but for one. -/
theorem guess_bounds (hnum : 0 < num) (hden : 0 < den) :
    (2 : ℚ) ^ 51 < num / den * 2 ^ (-((num.log2 : Int) - den.log2 - 52)) ∧
      (num : ℚ) / den * 2 ^ (-((num.log2 : Int) - den.log2 - 52)) < 2 ^ 53 := by
  have htwo : (2 : ℚ) ≠ 0 := by norm_num
  have hexp : -((num.log2 : Int) - den.log2 - 52) = den.log2 + 52 - num.log2 := by ring
  have hnum' : (0 : ℚ) < num := by exact_mod_cast hnum
  have hden' : (0 : ℚ) < den := by exact_mod_cast hden
  have hnum_le : (2 : ℚ) ^ num.log2 ≤ num := by exact_mod_cast Nat.log2_self_le hnum.ne'
  have hden_le : (2 : ℚ) ^ den.log2 ≤ den := by exact_mod_cast Nat.log2_self_le hden.ne'
  have hnum_lt : (num : ℚ) < 2 * 2 ^ num.log2 := by
    have h := @Nat.lt_log2_self num
    rw [pow_succ'] at h
    exact_mod_cast h
  have hden_lt : (den : ℚ) < 2 * 2 ^ den.log2 := by
    have h := @Nat.lt_log2_self den
    rw [pow_succ'] at h
    exact_mod_cast h
  rw [hexp, zpow_sub₀ htwo, zpow_add₀ htwo, zpow_natCast, zpow_natCast]
  set a : ℚ := 2 ^ num.log2
  set b : ℚ := 2 ^ den.log2
  have ha : 0 < a := by positivity
  have hb : 0 < b := by positivity
  have hquotient : (num : ℚ) / den * (b * 2 ^ (52 : Int) / a) = num * b * 2 ^ 52 / (a * den) := by
    field_simp
  rw [hquotient, lt_div_iff₀ (by positivity), div_lt_iff₀ (by positivity)]
  constructor
  · have hlow : a * den < num * (2 * b) :=
      calc a * den < a * (2 * b) := mul_lt_mul_of_pos_left hden_lt ha
        _ ≤ num * (2 * b) := mul_le_mul_of_nonneg_right hnum_le (by positivity)
    linarith
  · have hhigh : num * b < 2 * a * den :=
      calc num * b < 2 * a * b := mul_lt_mul_of_pos_right hnum_lt hb
        _ ≤ 2 * a * den := mul_le_mul_of_nonneg_left hden_le (by positivity)
    linarith

theorem filled_exactExponent (hnum : 0 < num) (hden : 0 < den) :
    Filled num den (exactExponent num den) := by
  obtain ⟨hlow, hhigh⟩ := guess_bounds hnum hden
  set guess : Int := (num.log2 : Int) - den.log2 - 52 with hguess
  obtain ⟨-, hpos⟩ := scale_pos hnum hden guess
  have hpos' : (0 : ℚ) < (scale num den guess).2 := by exact_mod_cast hpos
  have hquotient := scale_div num den guess
  rw [exactExponent, ← hguess]
  split
  · next hshort =>
    have hlt : (num : ℚ) / den * 2 ^ (-guess) < 2 ^ 52 := by
      rw [← hquotient, div_lt_iff₀ hpos']
      exact_mod_cast (Nat.div_lt_iff_lt_mul hpos).mp hshort
    have hnext : (num : ℚ) / den * 2 ^ (-(guess - 1)) = 2 * (num / den * 2 ^ (-guess)) := by
      have hexp : -(guess - 1) = 1 + -guess := by ring
      rw [hexp, zpow_add₀ (by norm_num), zpow_one]
      ring
    constructor
    · rw [hnext]
      linarith
    · rw [hnext]
      linarith
  · next hlong =>
    have hle : (2 : ℚ) ^ 52 ≤ num / den * 2 ^ (-guess) := by
      rw [← hquotient, le_div_iff₀ hpos']
      exact_mod_cast (Nat.le_div_iff_mul_le hpos).mp (Nat.not_lt.mp hlong)
    exact ⟨hle, hhigh⟩

/-! ### Rounding -/

theorem roundQuotient_bounds (hden : 0 < den) {low high : Nat} (hlow : low * den ≤ num)
    (hhigh : num < high * den) : low ≤ roundQuotient num den ∧ roundQuotient num den ≤ high := by
  have hle := (Nat.le_div_iff_mul_le hden).mpr hlow
  have hlt := (Nat.div_lt_iff_lt_mul hden).mpr hhigh
  rcases roundQuotient_cases num den with h | h <;> omega

/-- The significand at the exponent of a fraction has 53 bits, and fewer only at the least. -/
theorem scaled_bounds (hnum : 0 < num) (hden : 0 < den) :
    let e := exponentOf num den
    (scale num den e).1 < 2 ^ 53 * (scale num den e).2 ∧
      (minExponent < e → 2 ^ 52 * (scale num den e).2 ≤ (scale num den e).1) := by
  intro e
  have hfilled := filled_exactExponent hnum hden
  have hexact : exactExponent num den ≤ e := le_max_left _ _
  obtain ⟨-, hpos⟩ := scale_pos hnum hden e
  have hpos' : (0 : ℚ) < (scale num den e).2 := by exact_mod_cast hpos
  have hquotient := scale_div num den e
  constructor
  · have hle : (num : ℚ) / den * 2 ^ (-e) ≤ num / den * 2 ^ (-exactExponent num den) :=
      mul_le_mul_of_nonneg_left (zpow_le_zpow_right₀ (by norm_num) (neg_le_neg hexact))
        (by positivity)
    have hlt := hle.trans_lt hfilled.lt
    rw [← hquotient, div_lt_iff₀ hpos'] at hlt
    exact_mod_cast hlt
  · intro hmin
    have he : e = exactExponent num den := by
      have hmax : e = max (exactExponent num den) minExponent := exponentOf_eq num den
      omega
    have hle := hfilled.le
    rw [← he, ← hquotient, le_div_iff₀ hpos'] at hle
    exact_mod_cast hle

/-- A significand that is rounded up to one bit more is written with the next exponent. -/
theorem ofRatio?_of_ne_zero (hnum : num ≠ 0) : ofRatio? negative num den =
    let e := exponentOf num den
    let q := roundQuotient (scale num den e).1 (scale num den e).2
    if q = 2 ^ 53 then if e + 1 ≤ maxExponent then some ⟨negative, 2 ^ 52, e + 1⟩ else none
    else if e ≤ maxExponent then some ⟨negative, q, e⟩ else none := by
  have hcarry : 2 * leadingOne = 2 ^ 53 := rfl
  rw [ofRatio?, if_neg hnum]
  simp only [hcarry]
  split <;> rfl

theorem normal_of_ofRatio? (hden : 0 < den) (h : ofRatio? negative num den = some x) :
    x.Normal := by
  by_cases hzero : num = 0
  · rw [ofRatio?, if_pos hzero] at h
    cases h
    exact normal_zero negative
  · have hnum := Nat.pos_of_ne_zero hzero
    obtain ⟨hlt, hle⟩ := scaled_bounds hnum hden
    obtain ⟨-, hpos⟩ := scale_pos hnum hden (exponentOf num den)
    have hmin : minExponent ≤ exponentOf num den := le_max_right _ _
    obtain ⟨-, hupper⟩ := roundQuotient_bounds hpos (Nat.zero_mul _ ▸ Nat.zero_le _) hlt
    rw [ofRatio?_of_ne_zero hzero] at h
    simp only at h
    split at h
    · split at h
      · next hmax =>
        cases h
        exact ⟨Nat.pow_lt_pow_right (by decide) (by decide), Int.le_add_one hmin, hmax,
          fun _ => le_rfl⟩
      · cases h
    · next hcarry =>
      split at h
      · next hmax =>
        cases h
        refine ⟨lt_of_le_of_ne hupper hcarry, hmin, hmax, fun hfull => ?_⟩
        exact (roundQuotient_bounds hpos (hle hfull) hlt).1
      · cases h

/-! ### Arithmetic -/

theorem ratio_den_pos (x : Double) : 0 < x.ratio.2 := by
  simp [ratio, scale, Nat.shiftLeft_eq]

theorem normal_of_mul? {y z : Double} (h : x.mul? y = some z) : z.Normal :=
  normal_of_ofRatio? (Nat.mul_pos x.ratio_den_pos y.ratio_den_pos) h

theorem normal_of_div? {y z : Double} (h : x.div? y = some z) : z.Normal := by
  rw [div?] at h
  split at h
  · cases h
  · next hy => exact normal_of_ofRatio? (Nat.mul_pos x.ratio_den_pos (ratio_pos hy).1) h

/-- However many steps it takes, a number that is scaled stays a number of 64 bits. -/
theorem normal_of_timesTen? {y : Double} {e : Int} (hx : x.Normal) (h : x.timesTen? e = some y) :
    y.Normal := by
  induction x, e using timesTen?.induct with
  | case1 x e hsmall =>
    rw [timesTen?, if_pos hsmall] at h
    obtain ⟨power, -, h⟩ := Option.bind_eq_some_iff.mp h
    split at h
    · exact normal_of_mul? h
    · exact normal_of_div? h
  | case2 x e hlarge hzero =>
    rw [timesTen?, if_neg hlarge, if_pos hzero, Option.some.injEq] at h
    exact h ▸ hx
  | case3 x e hlarge hne hpos =>
    rw [timesTen?, if_neg hlarge, if_neg hne, if_pos hpos] at h
    cases h
  | case4 x e hlarge hne hneg ih =>
    rw [timesTen?, if_neg hlarge, if_neg hne, if_neg hneg] at h
    obtain ⟨z, hz, h⟩ := Option.bind_eq_some_iff.mp h
    obtain ⟨power, -, hz⟩ := Option.bind_eq_some_iff.mp hz
    exact ih z (normal_of_div? hz) h

end Double

theorem Number.normal_of_doubleOf? {d : Decimal} {x : Double} (h : Number.doubleOf? d = some x) :
    x.Normal := by
  simp only [Number.doubleOf?] at h
  obtain ⟨y, hy, rfl⟩ := Option.map_eq_some_iff.mp h
  obtain ⟨z, hz, hy⟩ := Option.bind_eq_some_iff.mp hy
  have hnormal := Double.normal_of_timesTen? (Double.normal_of_ofRatio? Nat.one_pos hz) hy
  exact ⟨hnormal.significand_lt, hnormal.exponent_ge, hnormal.exponent_le, hnormal.le_significand⟩

/-- Every number that is read is one of 64 bits. -/
theorem Number.stored_of_ofLiteral? {literal : List Char} {n : Number}
    (h : Number.ofLiteral? literal = some n) : n.Stored := by
  rw [Number.ofLiteral?] at h
  cases hparse : Decimal.parse? literal with
  | none => simp [hparse] at h
  | some d =>
    simp only [hparse] at h
    generalize (if d.negative then -(Decimal.ofDigits d.digits : Int)
      else Decimal.ofDigits d.digits) = signed at h
    split at h
    · next hinteger =>
      cases h
      simp only [Bool.and_eq_true] at hinteger
      exact hinteger.1.2
    · obtain ⟨x, hx, rfl⟩ := Option.map_eq_some_iff.mp h
      exact Number.normal_of_doubleOf? hx

end TriShare
