import Mathlib.Algebra.Order.Floor.Semifield
import Mathlib.Data.Rat.Floor
import Mathlib.Tactic
import TriShare.Number.Shortest
/-!
The shortest decimal of a floating-point number, bounded by the exponent of the number's first
digit: it is found on a grid of at most seventeen digits.
-/

namespace TriShare.Double

/-! ### Fractions -/

/-- The exact number without its sign. -/
def magnitude (x : Double) : ℚ := x.significand * 2 ^ x.exponent

theorem scale_div (num den : Nat) (e : Int) :
    ((scale num den e).1 : ℚ) / (scale num den e).2 = num / den * 2 ^ (-e) := by
  have htwo : (2 : ℚ) ≠ 0 := by norm_num
  have hexp : -e = ((-e).toNat : Int) - e.toNat := by omega
  conv_rhs => rw [hexp, zpow_sub₀ htwo, zpow_natCast, zpow_natCast]
  simp only [scale, Nat.shiftLeft_eq]
  push_cast
  field_simp

theorem ratio_div (x : Double) : (x.ratio.1 : ℚ) / x.ratio.2 = x.magnitude := by
  rw [ratio, scale_div, neg_neg, magnitude, Nat.cast_one, div_one]

theorem scale_pos {num den : Nat} (hnum : 0 < num) (hden : 0 < den) (e : Int) :
    0 < (scale num den e).1 ∧ 0 < (scale num den e).2 := by
  simp only [scale, Nat.shiftLeft_eq]
  constructor <;> positivity

theorem ratio_pos {x : Double} (h : x.significand ≠ 0) : 0 < x.ratio.1 ∧ 0 < x.ratio.2 :=
  scale_pos (Nat.pos_of_ne_zero h) one_pos _

/-! ### The exponent of the first digit -/

theorem lt_pow_length_toDigits (n : Nat) : n < 10 ^ (Nat.toDigits 10 n).length :=
  (Nat.length_toDigits_le_iff (by decide)
    (List.length_pos_of_ne_nil Nat.toDigits_ne_nil)).mp le_rfl

theorem pow_length_toDigits_le {n : Nat} (h : 0 < n) :
    10 ^ ((Nat.toDigits 10 n).length - 1) ≤ n := by
  rcases Nat.eq_zero_or_pos ((Nat.toDigits 10 n).length - 1) with hone | hmany
  · rw [hone]
    exact h
  · by_contra hlt
    have hle := (Nat.length_toDigits_le_iff (by decide) hmany).mpr (Nat.not_le.mp hlt)
    omega

/-- The integer part of a fraction that is not below one has as many digits as the fraction asks
for. -/
theorem pow_length_le_div {num den : Nat} (hden : 0 < den) (h : den ≤ num) :
    (10 : ℚ) ^ ((Nat.toDigits 10 (num / den)).length - 1) ≤ num / den ∧
      (num : ℚ) / den < 10 ^ (Nat.toDigits 10 (num / den)).length := by
  have hden' : (0 : ℚ) < den := by exact_mod_cast hden
  constructor
  · have hlow := pow_length_toDigits_le (Nat.div_pos h hden)
    calc (10 : ℚ) ^ ((Nat.toDigits 10 (num / den)).length - 1) ≤ ((num / den : Nat) : ℚ) := by
          exact_mod_cast hlow
      _ ≤ num / den := Nat.cast_div_le
  · have hhigh := lt_pow_length_toDigits (num / den)
    rw [div_lt_iff₀ hden']
    exact_mod_cast (Nat.div_lt_iff_lt_mul hden).mp hhigh

/-- The first digit of a fraction has the exponent of the power of ten that the fraction reaches. -/
structure Leading (num den : Nat) (lead : Int) : Prop where
  le : (10 : ℚ) ^ lead ≤ num / den
  lt : (num : ℚ) / den < 10 ^ (lead + 1)

theorem leading_of_le {num den : Nat} (hden : 0 < den) (h : den ≤ num) :
    Leading num den (((Nat.toDigits 10 (num / den)).length : Int) - 1) := by
  obtain ⟨hlow, hhigh⟩ := pow_length_le_div hden h
  have hlength := List.length_pos_of_ne_nil (@Nat.toDigits_ne_nil (num / den) 10)
  constructor
  · have hexp : (((Nat.toDigits 10 (num / den)).length : Int) - 1) =
        ((Nat.toDigits 10 (num / den)).length - 1 : Nat) := by omega
    rwa [hexp, zpow_natCast]
  · rwa [sub_add_cancel, zpow_natCast]

theorem leading_of_lt {num den : Nat} (hnum : 0 < num) (h : num < den) :
    let places := (Nat.toDigits 10 (den / num)).length
    Leading num den (if den ≤ num * Nat.pow 10 (places - 1) then 1 - (places : Int)
      else -(places : Int)) := by
  intro places
  obtain ⟨hlow, hhigh⟩ := pow_length_le_div hnum h.le
  have hplaces : 0 < places := List.length_pos_of_ne_nil Nat.toDigits_ne_nil
  have hnum' : (0 : ℚ) < num := by exact_mod_cast hnum
  have hden' : (0 : ℚ) < den := by exact_mod_cast hnum.trans h
  have hup : (10 : ℚ) ^ (1 - (places : Int)) = 1 / 10 ^ (places - 1) := by
    have hexp : 1 - (places : Int) = -((places - 1 : Nat) : Int) := by omega
    rw [hexp, zpow_neg, zpow_natCast, one_div]
  have hdown : (10 : ℚ) ^ (-(places : Int)) = 1 / 10 ^ places := by
    rw [zpow_neg, zpow_natCast, one_div]
  have hle : (num : ℚ) / den ≤ 10 ^ (1 - (places : Int)) := by
    rw [hup, div_le_div_iff₀ hden' (by positivity)]
    rw [le_div_iff₀ hnum'] at hlow
    linarith
  split
  · next hreach =>
    have hreach' : (den : ℚ) ≤ num * 10 ^ (places - 1) := by exact_mod_cast hreach
    constructor
    · rw [hup, div_le_div_iff₀ (by positivity) hden']
      linarith
    · refine hle.trans_lt (zpow_lt_zpow_right₀ (by norm_num) ?_)
      omega
  · next hreach =>
    have hreach' : (num : ℚ) * 10 ^ (places - 1) < den := by
      exact_mod_cast Nat.not_le.mp hreach
    constructor
    · rw [hdown, div_le_div_iff₀ (by positivity) hden']
      rw [div_lt_iff₀ hnum'] at hhigh
      linarith
    · have hexp : -(places : Int) + 1 = 1 - places := by ring
      rw [hexp, hup, div_lt_div_iff₀ hden' (by positivity)]
      linarith

theorem leading_leadingExponent {num den : Nat} (hnum : 0 < num) (hden : 0 < den) :
    Leading num den (leadingExponent num den) := by
  rw [leadingExponent]
  split
  · next h => exact leading_of_le hden h
  · next h => exact leading_of_lt hnum (Nat.not_le.mp h)

/-! ### Reading back -/

variable {x : Double} {k : Int} {d : Nat}

/-- A power with its exponent in two natural parts. -/
theorem zpow_mul_toNat {base : ℚ} (h : base ≠ 0) (e : Int) :
    base ^ e * base ^ (-e).toNat = base ^ e.toNat := by
  have hexp : e + ((-e).toNat : Int) = e.toNat := by omega
  rw [← zpow_natCast, ← zpow_natCast, ← zpow_add₀ h, hexp]

/-- What lies between the midpoints to the neighbours reads back. -/
theorem readsBack_of_between (hlow : (x.midpoints.1 : ℚ) * 2 ^ (x.exponent - 2) < d * 10 ^ k)
    (hhigh : (d : ℚ) * 10 ^ k < x.midpoints.2 * 2 ^ (x.exponent - 2)) :
    x.readsBack d k = true := by
  have htwo : (2 : ℚ) ^ (x.exponent - 2) * 2 ^ (2 - x.exponent).toNat =
      2 ^ (x.exponent - 2).toNat := by
    have h := @zpow_mul_toNat 2 (by norm_num) (x.exponent - 2)
    rwa [neg_sub] at h
  have hten : (10 : ℚ) ^ k * 10 ^ (-k).toNat = 10 ^ k.toNat := zpow_mul_toNat (by norm_num) k
  have hpos : (0 : ℚ) < 2 ^ (2 - x.exponent).toNat * 10 ^ (-k).toNat := by positivity
  have hvalue : (d : ℚ) * 10 ^ k.toNat * 2 ^ (2 - x.exponent).toNat =
      d * 10 ^ k * (2 ^ (2 - x.exponent).toNat * 10 ^ (-k).toNat) := by
    rw [← hten]
    ring
  have hmid : ∀ m : Nat, (m : ℚ) * 2 ^ (x.exponent - 2).toNat * 10 ^ (-k).toNat =
      m * 2 ^ (x.exponent - 2) * (2 ^ (2 - x.exponent).toNat * 10 ^ (-k).toNat) := by
    intro m
    rw [← htwo]
    ring
  have hlow' : x.midpoints.1 * 2 ^ (x.exponent - 2).toNat * 10 ^ (-k).toNat <
      d * 10 ^ k.toNat * 2 ^ (2 - x.exponent).toNat := by
    have h := mul_lt_mul_of_pos_right hlow hpos
    rw [← hvalue, ← hmid] at h
    exact_mod_cast h
  have hhigh' : d * 10 ^ k.toNat * 2 ^ (2 - x.exponent).toNat <
      x.midpoints.2 * 2 ^ (x.exponent - 2).toNat * 10 ^ (-k).toNat := by
    have h := mul_lt_mul_of_pos_right hhigh hpos
    rw [← hvalue, ← hmid] at h
    exact_mod_cast h
  simp only [readsBack, scale, Nat.shiftLeft_eq, Nat.pow_eq, Nat.one_mul, neg_sub]
  split
  · simp [hlow'.le, hhigh'.le]
  · simp [hlow', hhigh']

/-! ### Grids of decimals -/

/-- How often a power of ten goes into a number, as the grid of its multiples is entered. -/
theorem grid_div (num den : Nat) (k : Int) :
    ((num * Nat.pow 10 (-k).toNat : Nat) : ℚ) / (den * Nat.pow 10 k.toNat : Nat) =
      num / den / 10 ^ k := by
  have hten : (10 : ℚ) ≠ 0 := by norm_num
  have hexp : k = (k.toNat : Int) - (-k).toNat := by omega
  conv_rhs => rw [hexp, zpow_sub₀ hten, zpow_natCast, zpow_natCast]
  simp only [Nat.pow_eq]
  push_cast
  field_simp

theorem roundQuotient_cases (num den : Nat) :
    roundQuotient num den = num / den ∨ roundQuotient num den = num / den + 1 := by
  simp only [roundQuotient]
  split
  · exact .inl rfl
  · exact .inr rfl

theorem onGrid?_eq (x : Double) (k : Int) :
    let num := x.ratio.1 * Nat.pow 10 (-k).toNat
    let den := x.ratio.2 * Nat.pow 10 k.toNat
    onGrid? x k = match readsBack x (num / den) k, readsBack x (num / den + 1) k with
      | false, false => none
      | true, false => some (num / den)
      | false, true => some (num / den + 1)
      | true, true => some (roundQuotient num den) := rfl

theorem floor_grid (x : Double) (k : Int) :
    x.ratio.1 * Nat.pow 10 (-k).toNat / (x.ratio.2 * Nat.pow 10 k.toNat) =
      ⌊x.magnitude / 10 ^ k⌋₊ := by
  rw [← ratio_div, ← grid_div, Nat.floor_div_eq_div]

/-- What is found on a grid is one of the two multiples around the number, and reads back. -/
theorem onGrid?_eq_some (h : onGrid? x k = some d) :
    (d = ⌊x.magnitude / 10 ^ k⌋₊ ∨ d = ⌊x.magnitude / 10 ^ k⌋₊ + 1) ∧ x.readsBack d k = true := by
  rw [onGrid?_eq, floor_grid] at h
  cases hbelow : readsBack x ⌊x.magnitude / 10 ^ k⌋₊ k <;>
    cases habove : readsBack x (⌊x.magnitude / 10 ^ k⌋₊ + 1) k <;>
    simp only [hbelow, habove, Option.some.injEq, reduceCtorEq] at h
  · exact ⟨.inr h.symm, h ▸ habove⟩
  · exact ⟨.inl h.symm, h ▸ hbelow⟩
  · rcases roundQuotient_cases (x.ratio.1 * Nat.pow 10 (-k).toNat)
      (x.ratio.2 * Nat.pow 10 k.toNat) with hround | hround
    · rw [hround, floor_grid] at h
      exact ⟨.inl h.symm, h ▸ hbelow⟩
    · rw [hround, floor_grid] at h
      exact ⟨.inr h.symm, h ▸ habove⟩

/-- One of the two multiples around the number is enough. -/
theorem exists_onGrid? (h : x.readsBack ⌊x.magnitude / 10 ^ k⌋₊ k = true ∨
    x.readsBack (⌊x.magnitude / 10 ^ k⌋₊ + 1) k = true) : ∃ d, onGrid? x k = some d := by
  rw [onGrid?_eq, floor_grid]
  rcases h with h | h <;> rw [h]
  · cases readsBack x (⌊x.magnitude / 10 ^ k⌋₊ + 1) k <;> exact ⟨_, rfl⟩
  · cases readsBack x ⌊x.magnitude / 10 ^ k⌋₊ k <;> exact ⟨_, rfl⟩

/-! ### The shortest decimal -/

/-- The normal form of the numbers of 64 bits. -/
structure Normal (x : Double) : Prop where
  significand_lt : x.significand < 2 ^ 53
  exponent_ge : minExponent ≤ x.exponent
  exponent_le : x.exponent ≤ maxExponent
  le_significand : minExponent < x.exponent → 2 ^ 52 ≤ x.significand

/-- The exponent of the first decimal digit. -/
def lead (x : Double) : Int := leadingExponent x.ratio.1 x.ratio.2

theorem le_magnitude (h : x.significand ≠ 0) : (10 : ℚ) ^ x.lead ≤ x.magnitude := by
  obtain ⟨hnum, hden⟩ := ratio_pos h
  rw [← ratio_div]
  exact (leading_leadingExponent hnum hden).le

theorem magnitude_lt (h : x.significand ≠ 0) : x.magnitude < 10 ^ (x.lead + 1) := by
  obtain ⟨hnum, hden⟩ := ratio_pos h
  rw [← ratio_div]
  exact (leading_leadingExponent hnum hden).lt

theorem magnitude_eq_quarters (x : Double) :
    x.magnitude = 4 * x.significand * 2 ^ (x.exponent - 2) := by
  rw [magnitude, zpow_sub₀ (by norm_num)]
  norm_num
  ring

/-- The midpoint below is half a unit away or, at a power of two, a quarter. -/
theorem midpoint_below (h : x.significand ≠ 0) :
    (x.midpoints.1 : ℚ) = 4 * x.significand - 2 ∨
      x.significand = 2 ^ 52 ∧ (x.midpoints.1 : ℚ) = 4 * x.significand - 1 := by
  have hpos := Nat.pos_of_ne_zero h
  simp only [midpoints]
  split
  · next hpower =>
    have hone : x.significand = 2 ^ 52 := by
      simpa [leadingOne] using of_decide_eq_true (Bool.and_eq_true_iff.mp hpower).1
    right
    refine ⟨hone, ?_⟩
    rw [Nat.cast_sub (by omega)]
    push_cast
    rfl
  · left
    rw [Nat.cast_sub (by omega)]
    push_cast
    rfl

/-- A grid of seventeen digits is finer than the distance between the midpoints. -/
theorem exists_onGrid?_finest (hx : x.Normal) (h : x.significand ≠ 0) :
    ∃ d, onGrid? x (x.lead - 16) = some d := by
  set step : ℚ := 10 ^ (x.lead - 16) with hstep
  set unit : ℚ := 2 ^ (x.exponent - 2) with hunit
  have hunit_pos : 0 < unit := by positivity
  have hstep_pos : 0 < step := by positivity
  have hfine : step * 10 ^ 16 ≤ x.magnitude := by
    refine le_trans (le_of_eq ?_) (le_magnitude h)
    rw [hstep, zpow_sub₀ (by norm_num), zpow_ofNat]
    field_simp
  have hvalue : x.magnitude = 4 * (x.significand * unit) := by
    rw [magnitude_eq_quarters, mul_assoc]
  have hsmall : (x.significand : ℚ) * unit ≤ 2 ^ 53 * unit := by
    refine mul_le_mul_of_nonneg_right ?_ hunit_pos.le
    exact_mod_cast hx.significand_lt.le
  have hhigh : (x.midpoints.2 : ℚ) * unit = x.magnitude + 2 * unit := by
    rw [hvalue, midpoints]
    push_cast
    ring
  -- half a step is less than the distance to the midpoint below, also at a power of two
  have hlow : (x.midpoints.1 : ℚ) * unit < x.magnitude - step / 2 := by
    rcases midpoint_below h with hmid | ⟨hone, hmid⟩
    · have hmid' : (x.midpoints.1 : ℚ) * unit = x.magnitude - 2 * unit := by
        rw [hvalue, hmid]
        ring
      linarith
    · have hmid' : (x.midpoints.1 : ℚ) * unit = x.magnitude - unit := by
        rw [hvalue, hmid]
        ring
      have hpower : x.magnitude = 4 * (2 ^ 52 * unit) := by
        rw [hvalue, hone]
        norm_num
      linarith
  set below := ⌊x.magnitude / step⌋₊ with hbelow
  have hle : (below : ℚ) * step ≤ x.magnitude := by
    rw [← le_div_iff₀ hstep_pos]
    exact Nat.floor_le (by rw [hvalue]; positivity)
  have hlt : x.magnitude < ((below + 1 : Nat) : ℚ) * step := by
    rw [← div_lt_iff₀ hstep_pos]
    exact_mod_cast Nat.lt_floor_add_one (x.magnitude / step)
  have hnext : ((below + 1 : Nat) : ℚ) * step = below * step + step := by
    push_cast
    ring
  refine exists_onGrid? ?_
  rcases lt_or_ge (x.magnitude - below * step) (step / 2) with hnear | hfar
  · left
    exact readsBack_of_between (by linarith) (by linarith)
  · right
    exact readsBack_of_between (by linarith) (by linarith)

/-- The shortest decimal is found on a grid of at most seventeen digits. -/
theorem exists_shortest (hx : x.Normal) (h : x.significand ≠ 0) :
    ∃ (n d : Nat), n < 17 ∧ onGrid? x (x.lead - n) = some d ∧ x.shortest = (d, x.lead - n) := by
  have hshortest : x.shortest = ((((List.range 17).map fun (n : Nat) => x.lead - n).findSome?
      fun k => (onGrid? x k).map fun d => (d, k)).getD (0, 0)) := rfl
  cases hfind : ((List.range 17).map fun (n : Nat) => x.lead - n).findSome?
      fun k => (onGrid? x k).map fun d => (d, k) with
  | none =>
    obtain ⟨d, hd⟩ := exists_onGrid?_finest hx h
    have hmem : x.lead - 16 ∈ (List.range 17).map fun (n : Nat) => x.lead - n :=
      List.mem_map.mpr ⟨16, by simp, rfl⟩
    have hnone := List.findSome?_eq_none_iff.mp hfind _ hmem
    rw [hd] at hnone
    simp at hnone
  | some found =>
    obtain ⟨k, hmem, hk⟩ := List.exists_of_findSome?_eq_some hfind
    obtain ⟨n, hn, rfl⟩ := List.mem_map.mp hmem
    obtain ⟨d, hd, rfl⟩ := Option.map_eq_some_iff.mp hk
    refine ⟨n, d, List.mem_range.mp hn, hd, ?_⟩
    rw [hshortest, hfind]
    rfl

/-- The shortest decimal rounds to the number. -/
theorem readsBack_shortest (hx : x.Normal) (h : x.significand ≠ 0) :
    x.readsBack x.shortest.1 x.shortest.2 = true := by
  obtain ⟨n, d, -, hgrid, hshortest⟩ := exists_shortest hx h
  rw [hshortest]
  exact (onGrid?_eq_some hgrid).2

/-- It has no more than seventeen digits, unless it is the least number of eighteen. -/
theorem shortest_le (hx : x.Normal) (h : x.significand ≠ 0) : x.shortest.1 ≤ 10 ^ 17 := by
  obtain ⟨n, d, hn, hgrid, hshortest⟩ := exists_shortest hx h
  have hfloor : ⌊x.magnitude / 10 ^ (x.lead - n)⌋₊ < 10 ^ (n + 1) := by
    rw [Nat.floor_lt (by rw [magnitude]; positivity), div_lt_iff₀ (by positivity)]
    refine (magnitude_lt h).trans_le (le_of_eq ?_)
    have hexp : x.lead + 1 = ((n + 1 : Nat) : Int) + (x.lead - n) := by omega
    rw [hexp, zpow_add₀ (by norm_num), zpow_natCast]
    norm_cast
  have hpow : 10 ^ (n + 1) ≤ 10 ^ 17 := Nat.pow_le_pow_right (by decide) hn
  rw [hshortest]
  rcases (onGrid?_eq_some hgrid).1 with hd | hd
  · rw [hd]
    omega
  · rw [hd]
    omega

theorem least_reaches : (10 : ℚ) ^ (-324 : Int) ≤ 2 ^ minExponent := by
  have hnat : 2 ^ 1074 ≤ 10 ^ 324 := by decide +kernel
  have hmin : minExponent = -(1074 : Nat) := rfl
  rw [hmin, zpow_neg, zpow_neg, zpow_natCast]
  exact inv_anti₀ (by positivity) (by exact_mod_cast hnat)

theorem greatest_lt : (2 : ℚ) ^ 53 * 2 ^ maxExponent ≤ 10 ^ (309 : Int) := by
  have hnat : 2 ^ 53 * 2 ^ 971 ≤ 10 ^ 309 := by decide +kernel
  have hmax : maxExponent = (971 : Nat) := rfl
  rw [hmax, zpow_natCast]
  exact_mod_cast hnat

/-- The first digit of a normal number has an exponent of at most three digits. -/
theorem lead_bounds (hx : x.Normal) (h : x.significand ≠ 0) : -324 ≤ x.lead ∧ x.lead ≤ 308 := by
  have hone : (1 : ℚ) ≤ x.significand := by exact_mod_cast Nat.one_le_iff_ne_zero.mpr h
  have hlarge : (x.significand : ℚ) < 2 ^ 53 := by exact_mod_cast hx.significand_lt
  constructor
  · have hlt : (10 : ℚ) ^ (-324 : Int) < 10 ^ (x.lead + 1) :=
      calc (10 : ℚ) ^ (-324 : Int) ≤ 2 ^ minExponent := least_reaches
        _ = 1 * 2 ^ minExponent := (one_mul _).symm
        _ ≤ x.significand * 2 ^ x.exponent :=
          mul_le_mul hone (zpow_le_zpow_right₀ (by norm_num) hx.exponent_ge) (by positivity)
            (by positivity)
        _ < 10 ^ (x.lead + 1) := magnitude_lt h
    have := (zpow_lt_zpow_iff_right₀ (by norm_num)).mp hlt
    omega
  · have hlt : (10 : ℚ) ^ x.lead < 10 ^ (309 : Int) :=
      calc (10 : ℚ) ^ x.lead ≤ x.significand * 2 ^ x.exponent := le_magnitude h
        _ < 2 ^ 53 * 2 ^ maxExponent :=
          mul_lt_mul hlarge (zpow_le_zpow_right₀ (by norm_num) hx.exponent_le) (by positivity)
            (by positivity)
        _ ≤ 10 ^ (309 : Int) := greatest_lt
    have := (zpow_lt_zpow_iff_right₀ (by norm_num)).mp hlt
    omega

end TriShare.Double
