import Mathlib.Data.Nat.Digits.Lemmas
import TriShare.Number.FixedPoint
/-!
Rows of decimal digits as numbers and as fractions. `value_double` is the one step of the binary
expansion: doubling the fraction `0.d₁d₂…` moves one bit before the point and leaves a row of digits
of the same length after it. `toNat_fractionBits` is the whole run: the bits that are collected are
those of the fraction's multiple of a power of two, rounded down, in a word of 64 bits.
-/

namespace TriShare

/-- Every entry of the row is one of the ten digits. -/
def IsDigits (ds : List Nat) : Prop := ∀ d ∈ ds, d ≤ 9

namespace IsDigits

theorem cons_iff {d : Nat} {ds : List Nat} : IsDigits (d :: ds) ↔ d ≤ 9 ∧ IsDigits ds := by
  simp [IsDigits]

theorem append {ds es : List Nat} (hd : IsDigits ds) (he : IsDigits es) : IsDigits (ds ++ es) := by
  intro d h
  rcases List.mem_append.mp h with h | h
  · exact hd d h
  · exact he d h

theorem replicate_zero (n : Nat) : IsDigits (List.replicate n 0) := by
  intro d h
  rw [List.eq_of_mem_replicate h]
  exact Nat.zero_le 9

end IsDigits

namespace Decimal

/-! ### The number of a row of digits -/

/-- The row is read from its most significant digit, the library's rows from the least. -/
theorem ofDigits_eq (ds : List Nat) : ofDigits ds = Nat.ofDigits 10 ds.reverse := by
  rw [Nat.ofDigits_eq_foldr, List.foldr_reverse, ofDigits]
  simp only [Nat.cast_id, Nat.add_comm]

theorem ofDigits_append (ds es : List Nat) :
    ofDigits (ds ++ es) = ofDigits ds * 10 ^ es.length + ofDigits es := by
  rw [ofDigits_eq, List.reverse_append, Nat.ofDigits_append, List.length_reverse, ← ofDigits_eq,
    ← ofDigits_eq]
  ring

theorem ofDigits_cons (d : Nat) (ds : List Nat) :
    ofDigits (d :: ds) = d * 10 ^ ds.length + ofDigits ds := by
  rw [← List.singleton_append, ofDigits_append]
  simp [ofDigits]

theorem ofDigits_replicate_zero (n : Nat) : ofDigits (List.replicate n 0) = 0 := by
  rw [ofDigits_eq, List.reverse_replicate, Nat.ofDigits_replicate_zero]

theorem ofDigits_lt {ds : List Nat} (h : IsDigits ds) : ofDigits ds < 10 ^ ds.length := by
  rw [ofDigits_eq, ← List.length_reverse]
  refine Nat.ofDigits_lt_base_pow_length (by decide) fun d hd => ?_
  exact Nat.lt_succ_of_le (h d (List.mem_reverse.mp hd))

/-- Zeros in front do not count. -/
theorem ofDigits_dropWhile (ds : List Nat) : ofDigits (ds.dropWhile (· == 0)) = ofDigits ds := by
  induction ds with
  | nil => rfl
  | cons d ds ih =>
    rw [List.dropWhile_cons]
    split
    · next hd => rw [ih, ofDigits_cons, beq_iff_eq.mp hd, Nat.zero_mul, Nat.zero_add]
    · rfl

/-- A row that starts with another digit than zero has a number of its full length. -/
theorem le_ofDigits {d : Nat} {ds : List Nat} (hd : d ≠ 0) :
    10 ^ ds.length ≤ ofDigits (d :: ds) := by
  rw [ofDigits_cons]
  calc 10 ^ ds.length = 1 * 10 ^ ds.length := (Nat.one_mul _).symm
    _ ≤ d * 10 ^ ds.length := Nat.mul_le_mul_right _ (Nat.one_le_iff_ne_zero.mpr hd)
    _ ≤ d * 10 ^ ds.length + ofDigits ds := Nat.le_add_right _ _

theorem ofDigits_eq_zero_iff (ds : List Nat) : ofDigits ds = 0 ↔ ds.all (· == 0) = true := by
  induction ds with
  | nil => simp [ofDigits]
  | cons d ds ih =>
    rw [ofDigits_cons, Nat.add_eq_zero_iff, ih, Nat.mul_eq_zero]
    simp

end Decimal

namespace FixedPoint

open Decimal

/-! ### Doubling a fraction -/

theorem length_double (ds : List Nat) : (double ds).2.length = ds.length := by
  induction ds with
  | nil => rfl
  | cons d ds ih => simp [double, ih]

/-- At most one is carried, so no digit comes to more than nineteen while it is doubled. -/
theorem double_carry_le {ds : List Nat} (h : IsDigits ds) : (double ds).1 ≤ 1 := by
  induction ds with
  | nil => exact Nat.zero_le 1
  | cons d ds ih =>
    obtain ⟨hd, hds⟩ := IsDigits.cons_iff.mp h
    have hc := ih hds
    simp only [double]
    omega

/-- What is left after the point are digits again, whatever they were before. -/
theorem isDigits_double (ds : List Nat) : IsDigits (double ds).2 := by
  induction ds with
  | nil => exact fun d h => absurd h (List.not_mem_nil)
  | cons d ds ih =>
    refine IsDigits.cons_iff.mpr ⟨?_, ih⟩
    exact Nat.le_of_lt_succ (Nat.mod_lt _ (by decide))

/-- Doubling splits twice the fraction into the bit before the point and the digits after it. -/
theorem value_double (ds : List Nat) :
    2 * ofDigits ds = (double ds).1 * 10 ^ ds.length + ofDigits (double ds).2 := by
  induction ds with
  | nil => rfl
  | cons d ds ih =>
    have hn := Nat.div_add_mod (d * 2 + (double ds).1) 10
    simp only [double]
    rw [ofDigits_cons, ofDigits_cons, length_double, List.length_cons, pow_succ, Nat.mul_add, ih]
    set c := (double ds).1
    set q := (d * 2 + c) / 10
    set r := (d * 2 + c) % 10
    calc 2 * (d * 10 ^ ds.length) + (c * 10 ^ ds.length + ofDigits (double ds).2)
        = (d * 2 + c) * 10 ^ ds.length + ofDigits (double ds).2 := by ring
      _ = (10 * q + r) * 10 ^ ds.length + ofDigits (double ds).2 := by rw [hn]
      _ = _ := by ring

/-! ### Collecting the bits -/

/-- One bit more of a fraction is the bit before the point of its double, followed by the bits of
what is left. -/
theorem floor_succ (ds : List Nat) (bits : Nat) :
    ofDigits ds * 2 ^ (bits + 1) / 10 ^ ds.length
      = (double ds).1 * 2 ^ bits + ofDigits (double ds).2 * 2 ^ bits / 10 ^ ds.length := by
  have hsplit : ofDigits ds * 2 ^ (bits + 1)
      = ofDigits (double ds).2 * 2 ^ bits + (double ds).1 * 2 ^ bits * 10 ^ ds.length := by
    calc ofDigits ds * 2 ^ (bits + 1) = 2 * ofDigits ds * 2 ^ bits := by ring
      _ = ((double ds).1 * 10 ^ ds.length + ofDigits (double ds).2) * 2 ^ bits := by
        rw [value_double]
      _ = _ := by ring
  rw [hsplit, Nat.add_mul_div_right _ _ (by positivity), Nat.add_comm]

theorem toNat_push (word : UInt64) (bit : Nat) :
    (2 * word + UInt64.ofNat bit).toNat = (2 * word.toNat + bit) % 2 ^ 64 := by
  have htwo : (2 : UInt64).toNat = 2 := rfl
  rw [UInt64.toNat_add, UInt64.toNat_mul, UInt64.toNat_ofNat', htwo, ← Nat.add_mod]

/-- The word takes the bits in behind those that it holds, the first ones falling out of it. -/
theorem toNat_collect (bits : Nat) : ∀ {ds : List Nat} (word : UInt64), IsDigits ds →
    (collect bits ds word).toNat
      = (word.toNat * 2 ^ bits + ofDigits ds * 2 ^ bits / 10 ^ ds.length) % 2 ^ 64 := by
  induction bits with
  | zero =>
    intro ds word h
    have hlt : ofDigits ds / 10 ^ ds.length = 0 := Nat.div_eq_of_lt (ofDigits_lt h)
    simp only [collect, pow_zero, Nat.mul_one, hlt, Nat.add_zero]
    exact (Nat.mod_eq_of_lt word.toNat_lt).symm
  | succ bits ih =>
    intro ds word h
    rw [collect, ih _ (isDigits_double ds), floor_succ, length_double, toNat_push]
    set rest := ofDigits (double ds).2 * 2 ^ bits / 10 ^ ds.length
    have hmod : (2 * word.toNat + (double ds).1) % 2 ^ 64 * 2 ^ bits + rest
        ≡ (2 * word.toNat + (double ds).1) * 2 ^ bits + rest [MOD 2 ^ 64] :=
      ((Nat.mod_modEq _ _).mul_right _).add_right _
    calc ((2 * word.toNat + (double ds).1) % 2 ^ 64 * 2 ^ bits + rest) % 2 ^ 64
        = ((2 * word.toNat + (double ds).1) * 2 ^ bits + rest) % 2 ^ 64 := hmod
      _ = _ := by rw [pow_succ]; congr 1; ring

/-- The bits collected are those of the fraction's multiple, in a word of 64 bits. -/
theorem toNat_fractionBits {ds : List Nat} (h : IsDigits ds) (bits : Nat) :
    (fractionBits ds bits).toNat = ofDigits ds * 2 ^ bits / 10 ^ ds.length % 2 ^ 64 := by
  rw [fractionBits, toNat_collect bits _ h]
  simp

end FixedPoint

end TriShare
