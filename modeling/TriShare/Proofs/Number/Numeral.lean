import Mathlib.Algebra.Order.Field.Rat
import TriShare.Proofs.Number.Digits
/-!
Decimal numerals as they are written, with the exact number that each of them stands for: a sign,
digits before and after a point, and a power of ten, of which everything but one digit may be
missing. `parse?_chars` says that every numeral is read back as what it is.
-/

namespace TriShare

/-- What may stand before a row of digits. -/
inductive Sign | missing | plus | minus
  deriving DecidableEq

namespace Sign

def chars : Sign → List Char
  | .missing => []
  | .plus => ['+']
  | .minus => ['-']

def isMinus : Sign → Bool
  | .minus => true
  | _ => false

end Sign

/-- The character of a digit. -/
def digitChar (d : Fin 10) : Char := Char.ofNat (48 + d)

/-- A row of digits as it is written. -/
def digitRow (ds : List (Fin 10)) : List Char := ds.map digitChar

/-- The number of a row of digits. -/
def rowValue (ds : List (Fin 10)) : Nat := Decimal.ofDigits (ds.map Fin.val)

/-- A power of ten: the letter that marks it, small or capital, and an integer. -/
structure TenPower where
  capital : Bool
  sign : Sign
  digits : List (Fin 10)
  digits_ne_nil : digits ≠ []

namespace TenPower

def mark (p : TenPower) : Char := if p.capital then 'E' else 'e'

def chars (p : TenPower) : List Char := p.mark :: (p.sign.chars ++ digitRow p.digits)

def value (p : TenPower) : Int :=
  if p.sign.isMinus then -(rowValue p.digits : Int) else rowValue p.digits

end TenPower

/-- A decimal numeral. The digits after the point are missing together with the point. -/
structure Numeral where
  sign : Sign
  whole : List (Fin 10)
  fraction : Option (List (Fin 10))
  power : Option TenPower
  digits_ne_nil : whole ++ fraction.getD [] ≠ []

namespace Numeral

/-- The digits and the point. -/
def mantissa (n : Numeral) : List Char :=
  digitRow n.whole ++ match n.fraction with
    | none => []
    | some ds => '.' :: digitRow ds

/-- The numeral as it is written. -/
def chars (n : Numeral) : List Char :=
  n.sign.chars ++ (n.mantissa ++ (n.power.map TenPower.chars).getD [])

/-- What stands behind the mark of a power, if there is one. -/
def powerTail (n : Numeral) : Option (List Char) :=
  n.power.map fun p => p.sign.chars ++ digitRow p.digits

/-- The digits after the point. -/
def places (n : Numeral) : List (Fin 10) := n.fraction.getD []

/-- The power of ten by which the numeral scales its digits. -/
def exponent (n : Numeral) : Int := (n.power.map TenPower.value).getD 0

/-- The exact number without its sign: integer and fraction, times the power of ten. -/
def magnitude (n : Numeral) : ℚ :=
  (rowValue n.whole + rowValue n.places / 10 ^ n.places.length) * 10 ^ n.exponent

/-- What the numeral is read as. -/
def toDecimal (n : Numeral) : Decimal :=
  ⟨n.sign.isMinus, n.whole.map Fin.val, n.places.map Fin.val, n.exponent⟩

end Numeral

open Decimal

/-! ### Characters of digits -/

theorem digit?_digitChar : ∀ d : Fin 10, digit? (digitChar d) = some d.val := by decide

theorem digitChar_ne_sign : ∀ d : Fin 10, digitChar d ≠ '-' ∧ digitChar d ≠ '+' := by decide

theorem isPoint_digitChar : ∀ d : Fin 10, isPoint (digitChar d) = false := by decide

theorem isExponentMark_digitChar : ∀ d : Fin 10, isExponentMark (digitChar d) = false := by decide

theorem isBlank_digitChar : ∀ d : Fin 10, Text.isBlank (digitChar d) = false := by decide

theorem digits?_digitRow (ds : List (Fin 10)) : digits? (digitRow ds) = some (ds.map Fin.val) := by
  induction ds with
  | nil => rfl
  | cons d ds ih =>
    rw [digitRow] at ih
    rw [digitRow, List.map_cons, digits?, digit?_digitChar, ih]
    rfl

/-! ### Cutting at separators -/

/-- Nothing is cut before the first separator. -/
theorem cut_append {separates : Char → Bool} {before : List Char}
    (h : ∀ c ∈ before, separates c = false) (after : List Char) :
    cut separates (before ++ after)
      = (before ++ (cut separates after).1, (cut separates after).2) := by
  induction before with
  | nil => rfl
  | cons c before ih =>
    have hc : separates c = false := h c List.mem_cons_self
    rw [List.cons_append, cut, hc, ih fun d hd => h d (List.mem_cons_of_mem _ hd)]
    simp

theorem cut_digitRow {separates : Char → Bool} (h : ∀ d, separates (digitChar d) = false)
    (ds : List (Fin 10)) (after : List Char) :
    cut separates (digitRow ds ++ after)
      = (digitRow ds ++ (cut separates after).1, (cut separates after).2) := by
  refine cut_append (fun c hc => ?_) after
  obtain ⟨d, -, rfl⟩ := List.mem_map.mp hc
  exact h d

theorem unsign_chars (s : Sign) {cs : List Char} (h : ∀ c ∈ cs.head?, c ≠ '-' ∧ c ≠ '+') :
    unsign (s.chars ++ cs) = (s.isMinus, cs) := by
  cases s with
  | plus => rfl
  | minus => rfl
  | missing =>
    cases cs with
    | nil => rfl
    | cons c cs =>
      obtain ⟨hm, hp⟩ := h c rfl
      simp only [Sign.chars, List.nil_append, Sign.isMinus]
      unfold unsign
      split
      · next heq => exact absurd (List.cons.inj heq).1 hm
      · next heq => exact absurd (List.cons.inj heq).1 hp
      · rfl

theorem head?_digitRow {ds : List (Fin 10)} (after : List Char) (h : ds ≠ []) :
    ∀ c ∈ (digitRow ds ++ after).head?, c ≠ '-' ∧ c ≠ '+' := by
  obtain ⟨d, ds, rfl⟩ := List.exists_cons_of_ne_nil h
  intro c hc
  obtain rfl : digitChar d = c := by simpa [digitRow] using hc
  exact digitChar_ne_sign d

/-! ### Reading a numeral -/

theorem integer?_chars (p : TenPower) :
    integer? (p.sign.chars ++ digitRow p.digits) = some p.value := by
  have hhead := head?_digitRow [] p.digits_ne_nil
  rw [List.append_nil] at hhead
  rw [integer?, unsign_chars p.sign hhead]
  obtain ⟨d, ds, hds⟩ := List.exists_cons_of_ne_nil p.digits_ne_nil
  simp only [digits?_digitRow, hds, List.map_cons, TenPower.value, rowValue]

theorem cut_power (n : Numeral) :
    cut isExponentMark ((n.power.map TenPower.chars).getD []) = ([], n.powerTail) := by
  unfold Numeral.powerTail
  cases n.power with
  | none => rfl
  | some p =>
    have hmark : isExponentMark p.mark = true := by
      unfold TenPower.mark
      cases p.capital <;> rfl
    simp only [Option.map_some, Option.getD_some, TenPower.chars, cut, hmark, if_true]

/-- Without a mark the exponent is zero. -/
theorem exponent?_powerTail (n : Numeral) : exponent? n.powerTail = some n.exponent := by
  unfold Numeral.powerTail Numeral.exponent
  cases n.power with
  | none => rfl
  | some p => exact integer?_chars p

theorem mem_mantissa {n : Numeral} {c : Char} (h : c ∈ n.mantissa) :
    c = '.' ∨ ∃ d, c = digitChar d := by
  rcases List.mem_append.mp h with h | h
  · obtain ⟨d, -, rfl⟩ := List.mem_map.mp h
    exact Or.inr ⟨d, rfl⟩
  · cases hf : n.fraction with
    | none => rw [hf] at h; exact absurd h List.not_mem_nil
    | some ds =>
      rw [hf] at h
      rcases List.mem_cons.mp h with rfl | h
      · exact Or.inl rfl
      · obtain ⟨d, -, rfl⟩ := List.mem_map.mp h
        exact Or.inr ⟨d, rfl⟩

theorem isExponentMark_mantissa (n : Numeral) : ∀ c ∈ n.mantissa, isExponentMark c = false := by
  intro c hc
  rcases mem_mantissa hc with rfl | ⟨d, rfl⟩
  · rfl
  · exact isExponentMark_digitChar d

theorem mantissa_ne_nil (n : Numeral) : n.mantissa ≠ [] := by
  intro h
  obtain ⟨hwhole, hfraction⟩ := List.append_eq_nil_iff.mp h
  refine n.digits_ne_nil ?_
  rw [List.map_eq_nil_iff.mp hwhole]
  cases hf : n.fraction with
  | none => rfl
  | some ds => rw [hf] at hfraction; exact absurd hfraction (List.cons_ne_nil _ _)

theorem head?_mantissa (n : Numeral) (after : List Char) :
    ∀ c ∈ (n.mantissa ++ after).head?, c ≠ '-' ∧ c ≠ '+' := by
  intro c hc
  rw [List.head?_append_of_ne_nil _ (mantissa_ne_nil n)] at hc
  rcases mem_mantissa (List.mem_of_mem_head? hc) with rfl | ⟨d, rfl⟩
  · decide
  · exact digitChar_ne_sign d

theorem cut_mantissa (n : Numeral) :
    cut isPoint n.mantissa = (digitRow n.whole, n.fraction.map digitRow) := by
  rw [Numeral.mantissa, cut_digitRow isPoint_digitChar]
  cases n.fraction with
  | none => simp [cut]
  | some ds => simp [cut, isPoint]

/-- Every numeral is read as what it is. -/
theorem parse?_chars (n : Numeral) : parse? n.chars = some n.toDecimal := by
  have hplaces : digits? ((n.fraction.map digitRow).getD []) = some (n.places.map Fin.val) := by
    unfold Numeral.places
    cases n.fraction with
    | none => rfl
    | some ds => exact digits?_digitRow ds
  rw [parse?, Numeral.chars, unsign_chars n.sign (head?_mantissa n _)]
  simp only [cut_append (isExponentMark_mantissa n), cut_power, List.append_nil, cut_mantissa,
    digits?_digitRow, hplaces, exponent?_powerTail]
  split
  · next hw hp =>
    refine absurd ?_ n.digits_ne_nil
    rw [List.map_eq_nil_iff.mp (Option.some.inj hw), List.nil_append]
    exact List.map_eq_nil_iff.mp (Option.some.inj hp)
  · next hw hp he =>
    rw [← Option.some.inj hw, ← Option.some.inj hp, ← Option.some.inj he]
    rfl
  · next h => exact absurd rfl (h _ _ _ rfl rfl)

/-! ### White space around a numeral -/

theorem isBlank_signChars (s : Sign) : ∀ c ∈ s.chars, Text.isBlank c = false := by
  intro c hc
  cases s with
  | missing => exact absurd hc List.not_mem_nil
  | plus =>
    obtain rfl := List.mem_singleton.mp hc
    rfl
  | minus =>
    obtain rfl := List.mem_singleton.mp hc
    rfl

theorem isBlank_digitRow (ds : List (Fin 10)) : ∀ c ∈ digitRow ds, Text.isBlank c = false := by
  intro c hc
  obtain ⟨d, -, rfl⟩ := List.mem_map.mp hc
  exact isBlank_digitChar d

theorem isBlank_powerChars (p : TenPower) : ∀ c ∈ p.chars, Text.isBlank c = false := by
  intro c hc
  rcases List.mem_cons.mp hc with rfl | hc
  · unfold TenPower.mark
    cases p.capital <;> rfl
  · rcases List.mem_append.mp hc with hc | hc
    · exact isBlank_signChars p.sign c hc
    · exact isBlank_digitRow p.digits c hc

theorem isBlank_chars (n : Numeral) : ∀ c ∈ n.chars, Text.isBlank c = false := by
  intro c hc
  rcases List.mem_append.mp hc with hc | hc
  · exact isBlank_signChars n.sign c hc
  · rcases List.mem_append.mp hc with hc | hc
    · rcases mem_mantissa hc with rfl | ⟨d, rfl⟩
      · rfl
      · exact isBlank_digitChar d
    · cases hp : n.power with
      | none => rw [hp] at hc; exact absurd hc List.not_mem_nil
      | some p => rw [hp] at hc; exact isBlank_powerChars p c hc

theorem chars_ne_nil (n : Numeral) : n.chars ≠ [] := by
  intro h
  obtain ⟨-, h⟩ := List.append_eq_nil_iff.mp h
  exact mantissa_ne_nil n (List.append_eq_nil_iff.mp h).1

/-- White space is dropped up to the first character that is none. -/
theorem dropWhile_isBlank {before cs : List Char} (after : List Char)
    (hb : ∀ c ∈ before, Text.isBlank c = true) (hne : cs ≠ [])
    (hc : ∀ c ∈ cs, Text.isBlank c = false) :
    (before ++ (cs ++ after)).dropWhile Text.isBlank = cs ++ after := by
  rw [List.dropWhile_append_of_pos hb]
  obtain ⟨c, cs, rfl⟩ := List.exists_cons_of_ne_nil hne
  rw [List.cons_append, List.dropWhile_cons_of_neg]
  rw [hc c List.mem_cons_self]
  exact Bool.false_ne_true

/-- White space on both sides is taken off, and nothing else. -/
theorem trim_append {before cs after : List Char} (hb : ∀ c ∈ before, Text.isBlank c = true)
    (ha : ∀ c ∈ after, Text.isBlank c = true) (hne : cs ≠ [])
    (hc : ∀ c ∈ cs, Text.isBlank c = false) : Text.trim (before ++ (cs ++ after)) = cs := by
  have hrev : (cs ++ after).reverse = after.reverse ++ (cs.reverse ++ []) := by simp
  rw [Text.trim, dropWhile_isBlank after hb hne hc, hrev, dropWhile_isBlank]
  · simp
  · exact fun c h => ha c (List.mem_reverse.mp h)
  · exact fun h => hne (List.reverse_eq_nil_iff.mp h)
  · exact fun c h => hc c (List.mem_reverse.mp h)

end TriShare
