import Mathlib.Data.List.TakeWhile
import Mathlib.Tactic.FieldSimp
import Mathlib.Tactic.NormNum
import TriShare.Number.Basic
import TriShare.Proofs.Number.Numeral
import TriShare.Proofs.Number.Shortest
/-!
Numbers as they are written. The text of an integer and that of a floating-point number are numerals
of one form (`Numeral.Written`), although the point is put into the digits in four ways: between
them, behind zeros that follow them, before zeros that precede them, or behind the first of them
with a power of ten. `exists_laidOut` says of all four that they are worth the same.
-/

namespace TriShare

open Decimal

/-! ### Rows of digits -/

theorem digitChar_eq : ∀ d : Fin 10, digitChar d = d.val.digitChar := by decide

theorem digitChar_beq_zero : ∀ d : Fin 10, (digitChar d == '0') = (d == 0) := by decide

theorem length_digitRow (ds : List (Fin 10)) : (digitRow ds).length = ds.length := List.length_map _

theorem rowValue_append (ds es : List (Fin 10)) :
    rowValue (ds ++ es) = rowValue ds * 10 ^ es.length + rowValue es := by
  rw [rowValue, List.map_append, ofDigits_append, List.length_map]
  rfl

theorem rowValue_replicate_zero (k : Nat) : rowValue (List.replicate k 0) = 0 := by
  rw [rowValue, List.map_replicate]
  exact ofDigits_replicate_zero k

theorem rowValue_lt (ds : List (Fin 10)) : rowValue ds < 10 ^ ds.length := by
  have hdigits : IsDigits (ds.map Fin.val) := by
    intro d hd
    obtain ⟨d, -, rfl⟩ := List.mem_map.mp hd
    exact Nat.le_of_lt_succ d.isLt
  have hlt := ofDigits_lt hdigits
  rwa [List.length_map] at hlt

/-- A number is written with digits that stand for it. -/
theorem exists_row (n : Nat) :
    ∃ row : List (Fin 10), Nat.toDigits 10 n = digitRow row ∧ rowValue row = n := by
  induction n using Nat.strong_induction_on with
  | h n ih =>
    rcases Nat.lt_or_ge n 10 with hn | hn
    · refine ⟨[⟨n, hn⟩], ?_, ?_⟩
      · simp [Nat.toDigits_of_lt_base hn, digitRow, digitChar_eq]
      · simp [rowValue, ofDigits]
    · obtain ⟨row, hrow, hvalue⟩ := ih (n / 10) (by omega)
      refine ⟨row ++ [⟨n % 10, Nat.mod_lt n (by decide)⟩], ?_, ?_⟩
      · rw [Nat.toDigits_of_base_le (by decide) hn, hrow]
        simp [digitRow, digitChar_eq]
      · rw [rowValue_append, hvalue]
        simp only [rowValue, ofDigits, List.map_cons, List.map_nil, List.length_singleton,
          List.foldl_cons, List.foldl_nil]
        omega

theorem row_ne_nil {n : Nat} {row : List (Fin 10)} (h : Nat.toDigits 10 n = digitRow row) :
    row ≠ [] := by
  rintro rfl
  exact Nat.toDigits_ne_nil h

/-! ### The form of what is written -/

namespace Numeral

/-- The numerals that numbers are written as: no sign but a minus, digits before the point and after
it, and an exponent that has a small mark and a sign. -/
structure Written (n : Numeral) : Prop where
  sign : n.sign ≠ .plus
  whole : n.whole ≠ []
  fraction : n.fraction ≠ some []
  power : ∀ p ∈ n.power, p.capital = false ∧ p.sign ≠ .missing

/-- The exact number with its sign. -/
def value (n : Numeral) : ℚ := if n.sign.isMinus then -n.magnitude else n.magnitude

/-- A numeral is worth the number of all its digits, scaled by its exponent and its places. -/
theorem magnitude_eq (n : Numeral) :
    n.magnitude = rowValue (n.whole ++ n.places) * 10 ^ (n.exponent - n.places.length) := by
  have hten : (10 : ℚ) ≠ 0 := by norm_num
  rw [magnitude, rowValue_append, zpow_sub₀ hten, zpow_natCast]
  push_cast
  field_simp

/-- Zeros before the digits do not count, zeros behind them are powers of ten. -/
theorem magnitude_of_padded {n : Numeral} {before behind : Nat} {ds : List (Fin 10)}
    (h : n.whole ++ n.places = List.replicate before 0 ++ (ds ++ List.replicate behind 0)) :
    n.magnitude = rowValue ds * 10 ^ (n.exponent - n.places.length + behind) := by
  have hten : (10 : ℚ) ≠ 0 := by norm_num
  rw [magnitude_eq, h, rowValue_append, rowValue_append, rowValue_replicate_zero,
    rowValue_replicate_zero, List.length_replicate, zpow_add₀ hten, zpow_natCast]
  push_cast
  ring

/-- The same numeral behind a minus. -/
def negated (n : Numeral) : Numeral := { n with sign := .minus }

theorem chars_negated {n : Numeral} (h : n.sign = .missing) : n.negated.chars = '-' :: n.chars := by
  rw [chars, chars, h]
  rfl

theorem value_negated (n : Numeral) : n.negated.value = -n.magnitude := rfl

/-- All characters of a numeral are digits and five others. -/
theorem mem_chars {n : Numeral} {c : Char} (h : c ∈ n.chars) :
    c ∈ ['+', '-', '.', 'e', 'E'] ∨ ∃ d, c = digitChar d := by
  have hsign : ∀ s : Sign, ∀ c ∈ s.chars, c ∈ ['+', '-', '.', 'e', 'E'] := by
    intro s
    cases s <;> simp [Sign.chars]
  rcases List.mem_append.mp h with h | h
  · exact .inl (hsign n.sign c h)
  · rcases List.mem_append.mp h with h | h
    · rcases mem_mantissa h with rfl | hdigit
      · exact .inl (by decide)
      · exact .inr hdigit
    · cases hp : n.power with
      | none => simp [hp] at h
      | some p =>
        rw [hp] at h
        rcases List.mem_cons.mp h with rfl | h
        · left
          unfold TenPower.mark
          cases p.capital <;> decide
        · rcases List.mem_append.mp h with h | h
          · exact .inl (hsign p.sign c h)
          · obtain ⟨d, -, rfl⟩ := List.mem_map.mp h
            exact .inr ⟨d, rfl⟩

theorem toNat_digitChar_le : ∀ d : Fin 10, (digitChar d).toNat ≤ 0xFF := by decide

/-- None of them is above U+00FF. -/
theorem toNat_le_of_mem_chars {n : Numeral} {c : Char} (h : c ∈ n.chars) : c.toNat ≤ 0xFF := by
  rcases mem_chars h with h | ⟨d, rfl⟩
  · have hall : ∀ c ∈ ['+', '-', '.', 'e', 'E'], c.toNat ≤ 0xFF := by simp
    exact hall c h
  · exact toNat_digitChar_le d

theorem value_of_unsigned {n : Numeral} (h : n.sign = .missing) : n.value = n.magnitude := by
  rw [value, h]
  rfl

theorem Written.negated {n : Numeral} (h : n.Written) : n.negated.Written where
  sign := by simp [Numeral.negated]
  whole := h.whole
  fraction := h.fraction
  power := h.power

end Numeral

namespace Number

/-- Of a row of digits zeros are dropped at its end. -/
theorem exists_significant {row : List (Fin 10)} (h : row ≠ []) :
    ∃ kept zeros, kept ≠ [] ∧ row = kept ++ List.replicate zeros 0 ∧
      significant (digitRow row) = digitRow kept := by
  obtain ⟨d, ds, rfl⟩ := List.exists_cons_of_ne_nil h
  have hpred : (· == '0') ∘ digitChar = (· == 0) := funext digitChar_beq_zero
  refine ⟨d :: (ds.reverse.dropWhile (· == 0)).reverse, (ds.reverse.takeWhile (· == 0)).length,
    List.cons_ne_nil _ _, ?_, ?_⟩
  · have hzeros : ds.reverse.takeWhile (· == 0) =
        List.replicate (ds.reverse.takeWhile (· == 0)).length 0 := by
      refine List.eq_replicate_of_mem fun e he => ?_
      exact beq_iff_eq.mp (@List.mem_takeWhile_imp _ (· == 0) _ _ he)
    have hsplit := congrArg List.reverse
      (@List.takeWhile_append_dropWhile _ (· == 0) ds.reverse)
    rw [List.reverse_append, List.reverse_reverse, hzeros, List.reverse_replicate] at hsplit
    rw [List.cons_append, hsplit]
  · rw [digitRow, List.map_cons, significant, ← List.map_reverse, List.dropWhile_map, hpred,
      ← List.map_reverse]
    rfl

/-! ### Where the point is put -/

theorem layOut_of_marked {ds : List Char} {lead : Int} (h : lead < -5 ∨ 15 < lead) :
    layOut ds lead = (match ds with
      | d :: e :: rest => d :: '.' :: e :: rest
      | _ => ds) ++ 'e' :: (if lead < 0 then '-' else '+') :: Nat.toDigits 10 lead.natAbs := by
  exact if_pos (by simpa using h)

theorem layOut_of_neg {ds : List Char} {lead : Int} (h : ¬(lead < -5 ∨ 15 < lead))
    (hneg : lead < 0) :
    layOut ds lead = '0' :: '.' :: (List.replicate (lead.natAbs - 1) '0' ++ ds) := by
  exact (if_neg (by simpa using h)).trans (if_pos hneg)

theorem layOut_of_nonneg {ds : List Char} {lead : Int} (h : ¬(lead < -5 ∨ 15 < lead))
    (hneg : ¬lead < 0) :
    layOut ds lead = (ds.take (lead.toNat + 1) ++
      List.replicate (lead.toNat + 1 - ds.length) '0') ++
        '.' :: (if ds.length ≤ lead.toNat + 1 then ['0'] else ds.drop (lead.toNat + 1)) := by
  exact (if_neg (by simpa using h)).trans (if_neg hneg)

/-- The power of ten that an exponent is written as. -/
theorem exists_power (lead : Int) : ∃ p : TenPower, p.capital = false ∧ p.sign ≠ .missing ∧
    p.value = lead ∧
      p.chars = 'e' :: (if lead < 0 then '-' else '+') :: Nat.toDigits 10 lead.natAbs := by
  obtain ⟨row, hrow, hvalue⟩ := exists_row lead.natAbs
  rw [hrow]
  rcases lt_or_ge lead 0 with hneg | hneg
  · refine ⟨⟨false, .minus, row, row_ne_nil hrow⟩, rfl, by simp, ?_, by rw [if_pos hneg]; rfl⟩
    simp only [TenPower.value, Sign.isMinus, hvalue, if_true]
    omega
  · refine ⟨⟨false, .plus, row, row_ne_nil hrow⟩, rfl, by simp, ?_,
      by rw [if_neg (not_lt.mpr hneg)]; rfl⟩
    simp only [TenPower.value, Sign.isMinus, hvalue, Bool.false_eq_true, if_false]
    omega

/-- A numeral that is laid out of a row of digits, the first of which has a given exponent. -/
structure LaidOut (ds : List (Fin 10)) (lead : Int) (n : Numeral) : Prop where
  written : n.Written
  unsigned : n.sign = .missing
  chars : n.chars = layOut (digitRow ds) lead
  magnitude : n.magnitude = rowValue ds * 10 ^ (lead + 1 - ds.length)

variable {ds : List (Fin 10)} {lead : Int}

/-- Far from the point the first digit stands before it, and a power of ten behind the others. -/
theorem exists_laidOut_of_marked (hds : ds ≠ []) (h : lead < -5 ∨ 15 < lead) :
    ∃ n, LaidOut ds lead n := by
  obtain ⟨d, rest, rfl⟩ := List.exists_cons_of_ne_nil hds
  obtain ⟨p, hsmall, hsign, hvalue, hchars⟩ := exists_power lead
  have hpower : ∀ q ∈ some p, q.capital = false ∧ q.sign ≠ .missing := by
    rintro q ⟨⟩
    exact ⟨hsmall, hsign⟩
  cases rest with
  | nil =>
    let n : Numeral := ⟨.missing, [d], none, some p, by simp⟩
    have hdigits : n.whole ++ n.places = List.replicate 0 0 ++ ([d] ++ List.replicate 0 0) := rfl
    refine ⟨n, ⟨by simp [n], by simp [n], by simp [n], hpower⟩, rfl, ?_, ?_⟩
    · rw [layOut_of_marked h, ← hchars]
      rfl
    · rw [Numeral.magnitude_of_padded hdigits]
      simp [n, Numeral.exponent, Numeral.places, hvalue]
  | cons e rest =>
    let n : Numeral := ⟨.missing, [d], some (e :: rest), some p, by simp⟩
    have hdigits : n.whole ++ n.places =
        List.replicate 0 0 ++ (d :: e :: rest ++ List.replicate 0 0) := by
      simp [n, Numeral.places]
    refine ⟨n, ⟨by simp [n], by simp [n], by simp [n], hpower⟩, rfl, ?_, ?_⟩
    · rw [layOut_of_marked h, ← hchars]
      rfl
    · rw [Numeral.magnitude_of_padded hdigits]
      simp [n, Numeral.exponent, Numeral.places, hvalue]

/-- A small number has zeros between the point and its digits. -/
theorem exists_laidOut_of_neg (hds : ds ≠ []) (h : ¬(lead < -5 ∨ 15 < lead)) (hneg : lead < 0) :
    ∃ n, LaidOut ds lead n := by
  let zeros := lead.natAbs - 1
  let n : Numeral := ⟨.missing, [0], some (List.replicate zeros 0 ++ ds), none, by simp⟩
  have hdigits : n.whole ++ n.places =
      List.replicate (zeros + 1) 0 ++ (ds ++ List.replicate 0 0) := by
    simp [n, Numeral.places, List.replicate_succ]
  refine ⟨n, ⟨by simp [n], by simp [n], by simp [n, hds], by simp [n]⟩, rfl, ?_, ?_⟩
  · have hrow : digitRow (List.replicate zeros 0 ++ ds) =
        List.replicate zeros '0' ++ digitRow ds := by
      rw [digitRow, List.map_append, List.map_replicate]
      rfl
    rw [layOut_of_neg h hneg, ← hrow]
    simp only [n, Numeral.chars, Numeral.mantissa, Sign.chars, Option.map_none, Option.getD_none,
      List.append_nil, List.nil_append]
    rfl
  · have hplaces : n.places.length = zeros + ds.length := by simp [n, Numeral.places]
    have hexponent : n.exponent = 0 := rfl
    rw [Numeral.magnitude_of_padded hdigits, hplaces, hexponent]
    congr 2
    omega

/-- Another number has its point between the digits or behind zeros that follow them. -/
theorem exists_laidOut_of_nonneg (hds : ds ≠ []) (h : ¬(lead < -5 ∨ 15 < lead)) (hneg : ¬lead < 0) :
    ∃ n, LaidOut ds lead n := by
  have hrow : ∀ k : Nat, digitRow (List.replicate k 0) = List.replicate k '0' := by
    intro k
    rw [digitRow, List.map_replicate]
    rfl
  rcases Nat.lt_or_ge (lead.toNat + 1) ds.length with hlong | hshort
  · let n : Numeral := ⟨.missing, ds.take (lead.toNat + 1), some (ds.drop (lead.toNat + 1)), none,
      by simpa using hds⟩
    have hdigits : n.whole ++ n.places = List.replicate 0 0 ++ (ds ++ List.replicate 0 0) := by
      simp [n, Numeral.places]
    refine ⟨n, ⟨by simp [n], by simpa [n] using hds, by simpa [n] using hlong, by simp [n]⟩, rfl,
      ?_, ?_⟩
    · rw [layOut_of_nonneg h hneg, length_digitRow, if_neg (Nat.not_le.mpr hlong),
        Nat.sub_eq_zero_of_le hlong.le]
      simp [n, Numeral.chars, Numeral.mantissa, Sign.chars, digitRow]
    · have hplaces : n.places.length = ds.length - (lead.toNat + 1) := by
        simp [n, Numeral.places]
      have hexponent : n.exponent = 0 := rfl
      rw [Numeral.magnitude_of_padded hdigits, hplaces, hexponent]
      congr 2
      omega
  · let zeros := lead.toNat + 1 - ds.length
    let n : Numeral := ⟨.missing, ds ++ List.replicate zeros 0, some [0], none, by simp⟩
    have hdigits : n.whole ++ n.places =
        List.replicate 0 0 ++ (ds ++ List.replicate (zeros + 1) 0) := by
      simp [n, Numeral.places, List.replicate_succ']
    refine ⟨n, ⟨by simp [n], by simp [n, hds], by simp [n], by simp [n]⟩, rfl, ?_, ?_⟩
    · rw [layOut_of_nonneg h hneg, length_digitRow, if_pos hshort, ← hrow,
        List.take_of_length_le (by rw [length_digitRow]; exact hshort)]
      simp [n, zeros, Numeral.chars, Numeral.mantissa, Sign.chars, digitRow]
      rfl
    · have hplaces : n.places.length = 1 := rfl
      have hexponent : n.exponent = 0 := rfl
      rw [Numeral.magnitude_of_padded hdigits, hplaces, hexponent]
      congr 2
      omega

/-- Wherever the point is put, a row of digits becomes a numeral that is worth the same. -/
theorem exists_laidOut (hds : ds ≠ []) (lead : Int) : ∃ n, LaidOut ds lead n := by
  by_cases h : lead < -5 ∨ 15 < lead
  · exact exists_laidOut_of_marked hds h
  · by_cases hneg : lead < 0
    · exact exists_laidOut_of_neg hds h hneg
    · exact exists_laidOut_of_nonneg hds h hneg

/-- A row of seventeen digits with a moderate exponent takes at most twenty-three characters. -/
theorem length_layOut_le {cs : List Char} (hcs : cs.length ≤ 17) (hlead : lead.natAbs < 1000) :
    (layOut cs lead).length ≤ 23 := by
  by_cases h : lead < -5 ∨ 15 < lead
  · have hexponent : (Nat.toDigits 10 lead.natAbs).length ≤ 3 :=
      (Nat.length_toDigits_le_iff (by decide) (by decide)).mpr hlead
    rw [layOut_of_marked h]
    split
    · simp only [List.length_append, List.length_cons] at hcs ⊢
      omega
    · simp only [List.length_append, List.length_cons]
      omega
  · by_cases hneg : lead < 0
    · rw [layOut_of_neg h hneg]
      simp only [List.length_append, List.length_cons, List.length_replicate]
      omega
    · rw [layOut_of_nonneg h hneg]
      split
      · simp only [List.length_append, List.length_cons, List.length_nil, List.length_replicate,
          List.length_take]
        omega
      · simp only [List.length_append, List.length_cons, List.length_replicate, List.length_take,
          List.length_drop]
        omega

/-! ### The texts of numbers -/

end Number

namespace Double

/-- The exact decimal that a number is written as, without its sign. -/
def shown (x : Double) : ℚ := if x.significand = 0 then 0 else x.shortest.1 * 10 ^ x.shortest.2

/-- The exact decimal that a number is written as. -/
def decimal (x : Double) : ℚ := if x.negative then -x.shown else x.shown

end Double

namespace Number

/-- The exact decimal that a number is written as, for an integer the integer itself. -/
def decimal : Number → ℚ
  | .integer n => n
  | .double x => x.decimal

/-- Of the digits of the shortest decimal seventeen are left at most. -/
theorem length_le_of_shortest {x : Double} (hx : x.Normal) (h : x.significand ≠ 0)
    {row ds : List (Fin 10)} {zeros : Nat} (hrow : Nat.toDigits 10 x.shortest.1 = digitRow row)
    (hsplit : row = ds ++ List.replicate zeros 0)
    (htext : significant (digitRow row) = digitRow ds) : ds.length ≤ 17 := by
  rcases (Double.shortest_le hx h).lt_or_eq with hlt | heq
  · have hlength : (Nat.toDigits 10 x.shortest.1).length ≤ 17 :=
      (Nat.length_toDigits_le_iff (by decide) (by decide)).mpr hlt
    rw [hrow, length_digitRow, hsplit, List.length_append] at hlength
    omega
  · have hone : significant (Nat.toDigits 10 (10 ^ 17)) = ['1'] := by decide
    rw [← hrow, heq, hone] at htext
    rw [← length_digitRow, ← htext]
    decide

theorem natAbs_lead_lt {x : Double} (hx : x.Normal) (h : x.significand ≠ 0) :
    (x.shortest.2 + (Nat.toDigits 10 x.shortest.1).length - 1).natAbs < 1000 := by
  obtain ⟨n, d, hn, -, hshortest⟩ := Double.exists_shortest hx h
  obtain ⟨hlow, hhigh⟩ := Double.lead_bounds hx h
  have hlength : (Nat.toDigits 10 x.shortest.1).length ≤ 18 := by
    refine (Nat.length_toDigits_le_iff (by decide) (by decide)).mpr ?_
    exact (Double.shortest_le hx h).trans_lt (by decide)
  rw [hshortest] at hlength ⊢
  simp only at hlength ⊢
  omega

/-- The digits of the shortest decimal, without the zeros at their end. -/
theorem exists_digits (x : Double) : ∃ (ds : List (Fin 10)) (lead : Int), ds ≠ [] ∧
    doubleText x = (if x.negative then '-' :: layOut (digitRow ds) lead
      else layOut (digitRow ds) lead) ∧
    rowValue ds * 10 ^ (lead + 1 - ds.length) = x.shown ∧
    (x.Normal → ds.length ≤ 17 ∧ lead.natAbs < 1000) := by
  by_cases hzero : x.significand = 0
  · refine ⟨[0], 0, by simp, ?_, ?_, fun _ => by simp⟩
    · simp only [doubleText, hzero, if_true]
      rfl
    · simp [Double.shown, hzero, rowValue, ofDigits]
  · obtain ⟨row, hrow, hvalue⟩ := exists_row x.shortest.1
    obtain ⟨ds, zeros, hds, hsplit, htext⟩ := exists_significant (row_ne_nil hrow)
    have hlength : (Nat.toDigits 10 x.shortest.1).length = ds.length + zeros := by
      rw [hrow, length_digitRow, hsplit, List.length_append, List.length_replicate]
    refine ⟨ds, x.shortest.2 + (Nat.toDigits 10 x.shortest.1).length - 1, hds, ?_, ?_, ?_⟩
    · rw [← htext, ← hrow]
      simp only [doubleText, hzero, if_false]
    · have hten : (10 : ℚ) ≠ 0 := by norm_num
      have hexp : x.shortest.2 + (Nat.toDigits 10 x.shortest.1).length - 1 + 1 - ds.length =
          zeros + x.shortest.2 := by
        rw [hlength]
        push_cast
        ring
      rw [hsplit, rowValue_append, rowValue_replicate_zero, List.length_replicate] at hvalue
      rw [hexp, zpow_add₀ hten, zpow_natCast, Double.shown, if_neg hzero, ← hvalue]
      push_cast
      ring
    · intro hx
      exact ⟨length_le_of_shortest hx hzero hrow hsplit htext, natAbs_lead_lt hx hzero⟩

/-- An integer is written as a numeral. -/
theorem exists_numeral_integer (n : Int) :
    ∃ m : Numeral, m.Written ∧ m.chars = integerText n ∧ m.value = n := by
  obtain ⟨row, hrow, hvalue⟩ := exists_row n.natAbs
  let m : Numeral := ⟨.missing, row, none, none, by simpa using row_ne_nil hrow⟩
  have hwritten : m.Written := ⟨by simp [m], row_ne_nil hrow, by simp [m], by simp [m]⟩
  have hchars : m.chars = Nat.toDigits 10 n.natAbs := by
    simp [m, Numeral.chars, Numeral.mantissa, Sign.chars, hrow]
  have hdigits : m.whole ++ m.places = List.replicate 0 0 ++ (row ++ List.replicate 0 0) := by
    simp [m, Numeral.places]
  have hmagnitude : m.magnitude = |(n : ℚ)| := by
    rw [Numeral.magnitude_of_padded hdigits, hvalue]
    simp [m, Numeral.exponent, Numeral.places]
  rcases lt_or_ge n 0 with hneg | hneg
  · have hneg' : (n : ℚ) < 0 := by exact_mod_cast hneg
    refine ⟨m.negated, hwritten.negated, ?_, ?_⟩
    · rw [Numeral.chars_negated rfl, hchars, integerText, if_pos hneg]
    · rw [abs_of_neg hneg'] at hmagnitude
      rw [Numeral.value_negated, hmagnitude, neg_neg]
  · have hneg' : (0 : ℚ) ≤ n := by exact_mod_cast hneg
    refine ⟨m, hwritten, ?_, ?_⟩
    · rw [hchars, integerText, if_neg (not_lt.mpr hneg)]
    · rw [Numeral.value_of_unsigned rfl, hmagnitude, abs_of_nonneg hneg']

theorem exists_numeral_double (x : Double) :
    ∃ m : Numeral, m.Written ∧ m.chars = doubleText x ∧ m.value = x.decimal := by
  obtain ⟨ds, lead, hds, htext, hvalue, -⟩ := exists_digits x
  obtain ⟨m, hwritten, hsign, hchars, hmagnitude⟩ := exists_laidOut hds lead
  rw [htext, ← hchars, Double.decimal, ← hvalue, ← hmagnitude]
  cases x.negative with
  | false => exact ⟨m, hwritten, rfl, Numeral.value_of_unsigned hsign⟩
  | true => exact ⟨m.negated, hwritten.negated, Numeral.chars_negated hsign, m.value_negated⟩

/-- Every number is written as a numeral that is worth its decimal. -/
theorem exists_numeral (n : Number) :
    ∃ m : Numeral, m.Written ∧ n.text.toList = m.chars ∧ m.value = n.decimal := by
  cases n with
  | integer n =>
    obtain ⟨m, hwritten, hchars, hvalue⟩ := exists_numeral_integer n
    exact ⟨m, hwritten, by rw [text, String.toList_ofList, hchars], hvalue⟩
  | double x =>
    obtain ⟨m, hwritten, hchars, hvalue⟩ := exists_numeral_double x
    exact ⟨m, hwritten, by rw [text, String.toList_ofList, hchars], hvalue⟩

/-! ### Numbers of 64 bits -/

/-- The numbers that a document can hold: integers of 64 bits, with or without a sign, and
floating-point numbers. -/
def Stored : Number → Prop
  | .integer n => isExact n = true
  | .double x => x.Normal

theorem length_integerText_le {n : Int} (h : isExact n = true) : (integerText n).length ≤ 20 := by
  have hmin : Int64.minValue.toInt = -2 ^ 63 := rfl
  have hsize : UInt64.size = 2 ^ 64 := rfl
  obtain ⟨hlow, hhigh⟩ := Bool.and_eq_true_iff.mp h
  have hlow' := of_decide_eq_true hlow
  have hhigh' := of_decide_eq_true hhigh
  rw [hmin] at hlow'
  rw [hsize] at hhigh'
  rw [integerText]
  split
  · have hdigits : (Nat.toDigits 10 n.natAbs).length ≤ 19 :=
      (Nat.length_toDigits_le_iff (by decide) (by decide)).mpr (by omega)
    rw [List.length_cons]
    omega
  · exact (Nat.length_toDigits_le_iff (by decide) (by decide)).mpr (by omega)

theorem length_doubleText_le {x : Double} (hx : x.Normal) : (doubleText x).length ≤ 24 := by
  obtain ⟨ds, lead, -, htext, -, hsmall⟩ := exists_digits x
  obtain ⟨hds, hlead⟩ := hsmall hx
  have hlayout : (layOut (digitRow ds) lead).length ≤ 23 :=
    length_layOut_le (by rwa [length_digitRow]) hlead
  rw [htext]
  cases x.negative with
  | false => exact hlayout.trans (by decide)
  | true => exact Nat.succ_le_succ hlayout

/-- No number takes more than twenty-four characters. -/
theorem length_text_le {n : Number} (h : n.Stored) : n.text.length ≤ 24 := by
  cases n with
  | integer n =>
    rw [text, String.length_ofList]
    exact (length_integerText_le h).trans (by decide)
  | double x =>
    rw [text, String.length_ofList]
    exact length_doubleText_le h

end Number

end TriShare
