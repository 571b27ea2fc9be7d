import TriShare.Proofs.Number.FixedPoint
/-!
The binary expansion of a decimal fraction, round by round. A round doubles the fraction `0.d₁d₂…`:
the bit that it collects is the integer part of the double, and the digits that it leaves, as many
as before, are its fractional part (`Round`). After all rounds the word holds the fraction's
multiple of a power of two, rounded down, modulo `2 ^ 64`.
-/

namespace TriShare.FixedPoint

open Decimal

/-- The number `0.d₁d₂…`. -/
def fractionOf : List Nat → ℚ
  | [] => 0
  | d :: ds => (d + fractionOf ds) / 10

/-- What the digits come to in a round, each doubled and with what is carried to it. -/
def sums : List Nat → List Nat
  | [] => []
  | d :: ds => (d * 2 + (double ds).1) :: sums ds

/-- The digits that a number of rounds leave. -/
def leftAfter (ds : List Nat) : Nat → List Nat
  | 0 => ds
  | rounds + 1 => (double (leftAfter ds rounds)).2

/-! ### One round -/

theorem fractionOf_eq (ds : List Nat) : fractionOf ds = ofDigits ds / 10 ^ ds.length := by
  induction ds with
  | nil => simp [fractionOf, ofDigits]
  | cons d ds ih =>
    rw [fractionOf, ih, ofDigits_cons, List.length_cons, pow_succ]
    push_cast
    field_simp

theorem fractionOf_nonneg (ds : List Nat) : 0 ≤ fractionOf ds := by
  rw [fractionOf_eq]
  positivity

theorem fractionOf_lt_one {ds : List Nat} (h : IsDigits ds) : fractionOf ds < 1 := by
  have hlt : (ofDigits ds : ℚ) < 10 ^ ds.length := by exact_mod_cast ofDigits_lt h
  rw [fractionOf_eq, div_lt_one (by positivity)]
  exact hlt

/-- Doubling takes the quotients of the sums by ten to the left and keeps the remainders. -/
theorem double_eq_sums (ds : List Nat) :
    double ds = ((sums ds).headD 0 / 10, (sums ds).map (· % 10)) := by
  induction ds with
  | nil => rfl
  | cons d ds ih => simp [double, sums, ih]

theorem sums_le {ds : List Nat} (h : IsDigits ds) : ∀ n ∈ sums ds, n ≤ 19 := by
  induction ds with
  | nil => simp [sums]
  | cons d ds ih =>
    obtain ⟨hd, hds⟩ := IsDigits.cons_iff.mp h
    have hcarry := double_carry_le hds
    rw [sums, List.forall_mem_cons]
    exact ⟨by omega, ih hds⟩

/-- Twice the fraction is the bit before its point and what is left after it. -/
theorem two_mul_fractionOf (ds : List Nat) :
    2 * fractionOf ds = (double ds).1 + fractionOf (double ds).2 := by
  have hvalue : 2 * (ofDigits ds : ℚ) =
      (double ds).1 * 10 ^ ds.length + ofDigits (double ds).2 := by
    exact_mod_cast value_double ds
  rw [fractionOf_eq, fractionOf_eq, length_double, mul_div_assoc', hvalue, add_div,
    mul_div_cancel_right₀ _ (by positivity)]

/-- A round takes a fraction to a bit and the digits that are left. The first of the sums carries
the bit out and each of them leaves its last digit; a byte has room for all of them. -/
structure Round (ds : List Nat) (bit : Nat) (rest : List Nat) : Prop where
  of_sums : (bit, rest) = ((sums ds).headD 0 / 10, (sums ds).map (· % 10))
  sums_le : ∀ n ∈ sums ds, n ≤ 19
  length_eq : rest.length = ds.length
  digits : IsDigits rest
  bit_eq : (bit : ℤ) = ⌊2 * fractionOf ds⌋
  rest_eq : fractionOf rest = Int.fract (2 * fractionOf ds)

theorem round_double {ds : List Nat} (h : IsDigits ds) : Round ds (double ds).1 (double ds).2 := by
  have hvalue := two_mul_fractionOf ds
  have hnonneg := fractionOf_nonneg (double ds).2
  have hlt := fractionOf_lt_one (isDigits_double ds)
  have hbit : ((double ds).1 : ℤ) = ⌊2 * fractionOf ds⌋ := by
    symm
    rw [Int.floor_eq_iff, hvalue]
    push_cast
    constructor <;> linarith
  constructor
  case of_sums => exact double_eq_sums ds
  case sums_le => exact sums_le h
  case length_eq => exact length_double ds
  case digits => exact isDigits_double ds
  case bit_eq => exact hbit
  case rest_eq =>
    rw [Int.fract, ← hbit, hvalue]
    push_cast
    ring

/-! ### All rounds -/

theorem isDigits_leftAfter {ds : List Nat} (h : IsDigits ds) (rounds : Nat) :
    IsDigits (leftAfter ds rounds) := by
  cases rounds with
  | zero => exact h
  | succ rounds => exact isDigits_double (leftAfter ds rounds)

theorem length_leftAfter (ds : List Nat) (rounds : Nat) :
    (leftAfter ds rounds).length = ds.length := by
  induction rounds with
  | zero => rfl
  | succ rounds ih => rw [leftAfter, length_double, ih]

theorem leftAfter_double (ds : List Nat) (rounds : Nat) :
    leftAfter (double ds).2 rounds = leftAfter ds (rounds + 1) := by
  induction rounds with
  | zero => rfl
  | succ rounds ih =>
    rw [leftAfter, ih]
    rfl

theorem collect_succ (bits : Nat) (ds : List Nat) (word : UInt64) : collect (bits + 1) ds word =
    collect bits (double ds).2 (2 * word + UInt64.ofNat (double ds).1) := rfl

/-- Some rounds and then some more are all of them. -/
theorem collect_add (rounds more : Nat) : ∀ (ds : List Nat) (word : UInt64),
    collect (rounds + more) ds word =
      collect more (leftAfter ds rounds) (collect rounds ds word) := by
  induction rounds with
  | zero =>
    intro ds word
    rw [Nat.zero_add, leftAfter, collect]
  | succ rounds ih =>
    intro ds word
    rw [Nat.add_right_comm, collect_succ, collect_succ, ih, leftAfter_double]

theorem floor_fractionOf (ds : List Nat) (bits : Nat) :
    ⌊fractionOf ds * 2 ^ bits⌋₊ = ofDigits ds * 2 ^ bits / 10 ^ ds.length := by
  have hvalue : fractionOf ds = valueOf [] ds := by simp [fractionOf_eq, valueOf, ofDigits]
  rw [hvalue, floor_valueOf]
  simp [ofDigits]

/-- The bits of a decimal fraction are those of its multiple of a power of two, rounded down, in a
word of 64 bits. Each round on the way is one of the expansion, leaves as many digits as there were
at first, and puts its bit behind those of the rounds before it. -/
theorem fractionBits_expands {ds : List Nat} (h : IsDigits ds) (bits : Nat) :
    (fractionBits ds bits).toNat = ⌊fractionOf ds * 2 ^ bits⌋₊ % 2 ^ 64 ∧
    ∀ rounds < bits, ∃ bit, Round (leftAfter ds rounds) bit (leftAfter ds (rounds + 1)) ∧
      (leftAfter ds (rounds + 1)).length = ds.length ∧
      fractionBits ds bits = collect (bits - (rounds + 1)) (leftAfter ds (rounds + 1))
        (2 * fractionBits ds rounds + UInt64.ofNat bit) := by
  refine ⟨?_, fun rounds hrounds => ?_⟩
  · rw [floor_fractionOf, toNat_fractionBits h]
  · refine ⟨(double (leftAfter ds rounds)).1, round_double (isDigits_leftAfter h rounds),
      length_leftAfter ds (rounds + 1), ?_⟩
    obtain ⟨more, rfl⟩ : ∃ more, bits = rounds + (more + 1) := ⟨bits - (rounds + 1), by omega⟩
    have hmore : rounds + (more + 1) - (rounds + 1) = more := by omega
    rw [hmore, fractionBits, collect_add, collect_succ]
    rfl

/-- Nine tenths are `0.1110…` in binary. -/
theorem fractionBits_expands_nine_tenths :
    IsDigits [9] ∧ (fractionBits [9] 4).toNat = 14 ∧ Round [9] 1 [8] := by
  have hdigits : IsDigits [9] := by simp [IsDigits]
  have hexpands := fractionBits_expands hdigits 4
  refine ⟨hdigits, ?_, ?_⟩
  · rw [hexpands.1, fractionOf, fractionOf]
    norm_num
  · obtain ⟨bit, hround, -⟩ := hexpands.2 0 (by decide)
    have hbit : bit = 1 := congrArg Prod.fst hround.of_sums
    exact hbit ▸ hround

end TriShare.FixedPoint
