import Mathlib.Data.List.TakeWhile
import TriShare.Proofs.Number.FixedPoint
/-!
Whatever is read as a decimal number is a numeral (`parse?_eq_some_iff`). The texts that are encoded
are therefore the numerals with white space around them or not, except those that the field has no
element for (`FixedPoint.encode_eq_error_iff`).
-/

namespace TriShare

open Decimal

/-! ### Taking a numeral apart -/

theorem exists_digitChar {c : Char} {d : Nat} (h : digit? c = some d) :
    ∃ i : Fin 10, digitChar i = c ∧ i.val = d := by
  rw [digit?, Option.ite_none_right_eq_some] at h
  obtain ⟨⟨hlow, hhigh⟩, hd⟩ := h
  rw [Option.some.injEq] at hd
  have hlow' : 48 ≤ c.toNat := hlow
  have hhigh' : c.toNat ≤ 57 := hhigh
  refine ⟨⟨d, by omega⟩, ?_, rfl⟩
  have hchar : 48 + d = c.toNat := by omega
  rw [digitChar, hchar, Char.ofNat_toNat]

theorem exists_digitRow : ∀ {cs : List Char} {ds : List Nat}, digits? cs = some ds →
    ∃ row : List (Fin 10), digitRow row = cs ∧ row.map Fin.val = ds
  | [], ds, h => ⟨[], rfl, Option.some.inj h⟩
  | c :: cs, ds, h => by
    rw [digits?] at h
    cases hd : digit? c with
    | none => simp [hd] at h
    | some d =>
      cases hrest : digits? cs with
      | none => simp [hd, hrest] at h
      | some rest =>
        simp only [hd, hrest, Option.some.injEq] at h
        obtain ⟨i, hi, rfl⟩ := exists_digitChar hd
        obtain ⟨row, hrow, rfl⟩ := exists_digitRow hrest
        refine ⟨i :: row, ?_, h⟩
        rw [digitRow, List.map_cons, hi, ← hrow, digitRow]

/-- What is left when a sign is taken off stood after the sign. -/
theorem exists_sign (cs : List Char) :
    ∃ s : Sign, s.isMinus = (unsign cs).1 ∧ s.chars ++ (unsign cs).2 = cs := by
  unfold unsign
  split
  · exact ⟨.minus, rfl, rfl⟩
  · exact ⟨.plus, rfl, rfl⟩
  · exact ⟨.missing, rfl, rfl⟩

/-- A cut takes out one separator, or nothing if there is none. -/
theorem cut_cases {separates : Char → Bool} : ∀ cs : List Char,
    cut separates cs = (cs, none) ∨ ∃ before c after, separates c = true ∧
      cs = before ++ c :: after ∧ cut separates cs = (before, some after)
  | [] => .inl rfl
  | c :: cs => by
    rw [cut]
    split
    · next hc => exact .inr ⟨[], c, cs, hc, rfl, rfl⟩
    · rcases cut_cases cs with hcut | ⟨before, d, after, hd, heq, hcut⟩
      · exact .inl (by rw [hcut])
      · exact .inr ⟨c :: before, d, after, hd, by rw [heq, List.cons_append], by rw [hcut]⟩

theorem exists_tenPower {c : Char} {cs : List Char} {e : Int} (hc : isExponentMark c = true)
    (h : integer? cs = some e) : ∃ p : TenPower, p.chars = c :: cs ∧ p.value = e := by
  obtain ⟨s, hs, hcs⟩ := exists_sign cs
  rw [integer?] at h
  cases hdigits : digits? (unsign cs).2 with
  | none => simp [hdigits] at h
  | some ds =>
    obtain ⟨row, hrow, rfl⟩ := exists_digitRow hdigits
    cases row with
    | nil => simp [hdigits] at h
    | cons d row =>
      simp only [hdigits, List.map_cons, Option.some.injEq] at h
      refine ⟨⟨c == 'E', s, d :: row, List.cons_ne_nil _ _⟩, ?_, ?_⟩
      · have hmark : (if c == 'E' then 'E' else 'e') = c := by
          rcases (Bool.or_eq_true _ _).mp hc with hc | hc
          · rw [beq_iff_eq.mp hc]
            rfl
          · rw [beq_iff_eq.mp hc]
            rfl
        rw [TenPower.chars, TenPower.mark, hmark, hrow, hcs]
      · rw [TenPower.value, hs, ← h, rowValue, List.map_cons]

/-- The characters from the exponent's mark on are a power of ten. -/
theorem exists_power {cs : List Char} {e : Int}
    (h : exponent? (cut isExponentMark cs).2 = some e) : ∃ p : Option TenPower,
      (cut isExponentMark cs).1 ++ (p.map TenPower.chars).getD [] = cs ∧
        (p.map TenPower.value).getD 0 = e := by
  rcases @cut_cases isExponentMark cs with hcut | ⟨before, c, after, hc, rfl, hcut⟩
  · rw [hcut] at h ⊢
    exact ⟨none, List.append_nil cs, Option.some.inj h⟩
  · rw [hcut] at h ⊢
    obtain ⟨p, hp, hvalue⟩ := exists_tenPower hc h
    exact ⟨some p, congrArg (before ++ ·) hp, hvalue⟩

/-- The characters around the point are rows of digits. -/
theorem exists_mantissa {cs : List Char} {whole fraction : List Nat}
    (hwhole : digits? (cut isPoint cs).1 = some whole)
    (hfraction : digits? ((cut isPoint cs).2.getD []) = some fraction) :
    ∃ (w : List (Fin 10)) (f : Option (List (Fin 10))),
      (digitRow w ++ match f with
        | none => []
        | some ds => '.' :: digitRow ds) = cs ∧
      w.map Fin.val = whole ∧ (f.getD []).map Fin.val = fraction := by
  obtain ⟨w, hw, rfl⟩ := exists_digitRow hwhole
  obtain ⟨f, hf, rfl⟩ := exists_digitRow hfraction
  rcases @cut_cases isPoint cs with hcut | ⟨before, c, after, hc, rfl, hcut⟩
  · rw [hcut] at hw hf
    refine ⟨w, none, ?_, rfl, ?_⟩
    · rw [List.append_nil, hw]
    · rw [List.map_eq_nil_iff.mp hf]
      rfl
  · rw [hcut] at hw hf
    refine ⟨w, some f, ?_, rfl, rfl⟩
    rw [beq_iff_eq.mp hc]
    simp only [hw, hf, Option.getD_some]

theorem parse?_eq (cs : List Char) :
    parse? cs =
      let power := cut isExponentMark (unsign cs).2
      let point := cut isPoint power.1
      match digits? point.1, digits? (point.2.getD []), exponent? power.2 with
      | some [], some [], _ => none
      | some whole, some fraction, some exponent =>
        some ⟨(unsign cs).1, whole, fraction, exponent⟩
      | _, _, _ => none := rfl

/-- Only numerals are read, each as what it is. -/
theorem parse?_eq_some_iff {cs : List Char} {d : Decimal} :
    parse? cs = some d ↔ ∃ n : Numeral, n.chars = cs ∧ n.toDecimal = d := by
  constructor
  · intro h
    rw [parse?_eq] at h
    simp only at h
    split at h
    · cases h
    · next hne hwhole hfraction hexponent =>
      obtain ⟨s, hs, hcs⟩ := exists_sign cs
      obtain ⟨p, hpower, rfl⟩ := exists_power hexponent
      obtain ⟨w, f, hmantissa, rfl, rfl⟩ := exists_mantissa hwhole hfraction
      have hdigits : w ++ f.getD [] ≠ [] := by
        intro hnil
        obtain ⟨hw, hf⟩ := List.append_eq_nil_iff.mp hnil
        exact hne (by rw [hw, List.map_nil]) (by rw [hf, List.map_nil])
      let n : Numeral := ⟨s, w, f, p, hdigits⟩
      have hchars : n.chars = s.chars ++ (n.mantissa ++ (p.map TenPower.chars).getD []) := rfl
      have hmantissa' : n.mantissa = (cut isExponentMark (unsign cs).2).1 := hmantissa
      refine ⟨n, by rw [hchars, hmantissa', hpower, hcs], ?_⟩
      rw [← Option.some.inj h, ← hs]
      rfl
    · cases h
  · rintro ⟨n, rfl, rfl⟩
    exact parse?_chars n

/-! ### White space around a numeral -/

/-- White space is all that is taken off. -/
theorem exists_trim (cs : List Char) : ∃ before after : List Char,
    (∀ c ∈ before, Text.isBlank c = true) ∧ (∀ c ∈ after, Text.isBlank c = true) ∧
      cs = before ++ (Text.trim cs ++ after) := by
  refine ⟨cs.takeWhile Text.isBlank,
    ((cs.dropWhile Text.isBlank).reverse.takeWhile Text.isBlank).reverse, ?_, ?_, ?_⟩
  · exact fun c hc => List.mem_takeWhile_imp hc
  · exact fun c hc => List.mem_takeWhile_imp (List.mem_reverse.mp hc)
  · rw [Text.trim, ← List.reverse_append, List.takeWhile_append_dropWhile, List.reverse_reverse,
      List.takeWhile_append_dropWhile]

namespace Numeral

/-- Whether a text consists of the numeral, with white space around it or not. -/
def In (n : Numeral) (text : String) : Prop := ∃ before after : List Char,
  (∀ c ∈ before, Text.isBlank c = true) ∧ (∀ c ∈ after, Text.isBlank c = true) ∧
    text.toList = before ++ (n.chars ++ after)

/-- Whether the number, scaled and rounded down without its sign, has a place in the field: below
`2 ^ 64`, or down to `-2 ^ 63`. -/
def Fits (n : Numeral) (precision : Nat) : Prop :=
  if n.sign.isMinus then ⌊n.magnitude * 2 ^ precision⌋₊ ≤ 2 ^ 63
  else ⌊n.magnitude * 2 ^ precision⌋₊ < 2 ^ 64

theorem In.trim_eq {n : Numeral} {text : String} (h : n.In text) :
    Text.trim text.toList = n.chars := by
  obtain ⟨before, after, hb, ha, ht⟩ := h
  rw [ht, trim_append hb ha (chars_ne_nil n) (isBlank_chars n)]

theorem in_iff {n : Numeral} {text : String} : n.In text ↔ Text.trim text.toList = n.chars := by
  refine ⟨In.trim_eq, fun h => ?_⟩
  obtain ⟨before, after, hb, ha, ht⟩ := exists_trim text.toList
  rw [h] at ht
  exact ⟨before, after, hb, ha, ht⟩

end Numeral

namespace FixedPoint

variable {precision : Nat} {text : String} {n : Numeral}

/-- A text is not encoded if it is no numeral, or one that the field has no element for. -/
theorem encode_eq_error_iff {e : FieldError} : encode precision text = .error e ↔
    (∀ n : Numeral, ¬n.In text) ∧ e = .mismatch (.notDecimal text) ∨
    (∃ n : Numeral, n.In text ∧ ofDecimal? precision n.toDecimal = none) ∧
      e = .overflow text := by
  rw [encode]
  cases hparse : parse? (Text.trim text.toList) with
  | none =>
    have hnone : ∀ n : Numeral, ¬n.In text := by
      intro n hn
      rw [hn.trim_eq, parse?_chars] at hparse
      cases hparse
    constructor
    · intro h
      exact .inl ⟨hnone, (Except.error.inj h).symm⟩
    · rintro (⟨-, rfl⟩ | ⟨⟨n, hn, -⟩, -⟩)
      · rfl
      · exact absurd hn (hnone n)
  | some d =>
    obtain ⟨n, hn, rfl⟩ := parse?_eq_some_iff.mp hparse
    have hin : n.In text := Numeral.in_iff.mpr hn.symm
    constructor
    · intro h
      cases hnone : ofDecimal? precision n.toDecimal with
      | none =>
        simp only [hnone] at h
        exact .inr ⟨⟨n, hin, hnone⟩, (Except.error.inj h).symm⟩
      | some w => simp [hnone] at h
    · rintro (⟨hnot, -⟩ | ⟨⟨n', hn', hnone⟩, rfl⟩)
      · exact absurd hin (hnot n)
      · -- Both numerals are the trimmed text, so they are read as the same number.
        rw [hn'.trim_eq, parse?_chars, Option.some.injEq] at hparse
        rw [hparse] at hnone
        simp only [hnone]

/-- For all texts but excessively long ones there is an element exactly for the numbers that fit. -/
theorem ofDecimal?_eq_none_iff (hp : precision ≤ 64) (hn : n.In text)
    (hsize : text.utf8ByteSize < 2 ^ 62) :
    ofDecimal? precision n.toDecimal = none ↔ ¬n.Fits precision := by
  obtain ⟨before, after, -, -, ht⟩ := hn
  have hlen : n.toDecimal.digits.length < 2 ^ 62 := (length_toDecimal_le ht).trans_lt hsize
  have helement := elementOf_magnitude? hp (isDigits_toDecimal n) hlen text
  have hneg : n.toDecimal.negative = n.sign.isMinus := rfl
  rw [elementOf, magnitudeOf_toDecimal, hneg, fieldElement] at helement
  rw [ofDecimal?, hneg, Numeral.Fits]
  cases hbind : (magnitude? precision n.toDecimal).bind (element? n.sign.isMinus) with
  | none =>
    simp only [hbind] at helement
    grind
  | some w =>
    simp only [hbind] at helement
    grind

end FixedPoint

end TriShare
