import TriShare.Proofs.Number.Grammar
/-!
Which texts are numerals is a matter of their shape, that is, of the characters that are no digits
and of the places where digits stand. Every step of the reader sees the shape only
(`Decimal.parse?_shape`), so that neither the size of the number nor the precision decides whether a
text is taken for a number (`FixedPoint.encode_reads_numerals`).
-/

namespace TriShare

open Decimal

namespace Decimal

/-- A zero for a digit; other characters stay. -/
def zeroDigit (c : Char) : Char := if (digit? c).isSome then '0' else c

/-- Characters with zeros for all digits. -/
def shape (cs : List Char) : List Char := cs.map zeroDigit

/-- A number with zeros for all digits, those of its exponent too. -/
def zeroed (d : Decimal) : Decimal :=
  ⟨d.negative, List.replicate d.whole.length 0, List.replicate d.fraction.length 0, 0⟩

theorem digit?_zeroDigit (c : Char) : digit? (zeroDigit c) = (digit? c).map fun _ => 0 := by
  rw [zeroDigit]
  cases h : digit? c with
  | none => exact h
  | some d => rfl

/-- What is told of no digit is told of the same characters before and after. -/
theorem apply_zeroDigit {p : Char → Bool} (h : ∀ d, p (digitChar d) = false) (c : Char) :
    p (zeroDigit c) = p c := by
  rw [zeroDigit]
  cases hdigit : digit? c with
  | none => rfl
  | some d =>
    obtain ⟨i, rfl, -⟩ := exists_digitChar hdigit
    rw [h i]
    exact h 0

/-! ### The steps of the reader -/

theorem trim_shape (cs : List Char) : Text.trim (shape cs) = shape (Text.trim cs) := by
  have hblank : Text.isBlank ∘ zeroDigit = Text.isBlank :=
    funext (apply_zeroDigit isBlank_digitChar)
  rw [Text.trim, Text.trim, shape, shape, List.dropWhile_map, hblank, ← List.map_reverse,
    List.dropWhile_map, hblank, ← List.map_reverse]

theorem unsign_of_ne {c : Char} {cs : List Char} (hminus : c ≠ '-') (hplus : c ≠ '+') :
    unsign (c :: cs) = (false, c :: cs) :=
  unsign_chars .missing (by simpa using And.intro hminus hplus)

theorem zeroDigit_ne {c sign : Char} (hd : ∀ d, digitChar d ≠ sign) (hc : c ≠ sign) :
    zeroDigit c ≠ sign := by
  have hsame : (zeroDigit c == sign) = (c == sign) :=
    @apply_zeroDigit (· == sign) (fun d => beq_eq_false_iff_ne.mpr (hd d)) c
  rwa [beq_eq_false_iff_ne.mpr hc, beq_eq_false_iff_ne] at hsame

theorem unsign_shape (cs : List Char) :
    unsign (shape cs) = ((unsign cs).1, shape (unsign cs).2) := by
  cases cs with
  | nil => rfl
  | cons c cs =>
    by_cases hminus : c = '-'
    · rw [hminus]
      rfl
    · by_cases hplus : c = '+'
      · rw [hplus]
        rfl
      · have hminus' := zeroDigit_ne (fun d => (digitChar_ne_sign d).1) hminus
        have hplus' := zeroDigit_ne (fun d => (digitChar_ne_sign d).2) hplus
        rw [shape, List.map_cons, unsign_of_ne hminus' hplus', unsign_of_ne hminus hplus, shape,
          List.map_cons]

theorem cut_shape {separates : Char → Bool} (h : ∀ d, separates (digitChar d) = false) :
    ∀ cs : List Char, cut separates (shape cs) =
      (shape (cut separates cs).1, (cut separates cs).2.map shape)
  | [] => rfl
  | c :: cs => by
    rw [shape, List.map_cons, cut, cut, apply_zeroDigit h, ← shape, cut_shape h cs]
    split <;> rfl

theorem digits?_shape : ∀ cs : List Char,
    digits? (shape cs) = (digits? cs).map fun ds => List.replicate ds.length 0
  | [] => rfl
  | c :: cs => by
    rw [shape, List.map_cons, digits?, digits?, digit?_zeroDigit, ← shape, digits?_shape cs]
    cases digit? c <;> cases digits? cs <;> rfl

theorem integer?_shape (cs : List Char) : integer? (shape cs) = (integer? cs).map fun _ => 0 := by
  rw [integer?, integer?, unsign_shape]
  simp only [digits?_shape]
  cases digits? (unsign cs).2 with
  | none => rfl
  | some ds =>
    cases ds with
    | nil => rfl
    | cons d ds => simp [ofDigits_replicate_zero]

theorem exponent?_shape (tail : Option (List Char)) :
    exponent? (tail.map shape) = (exponent? tail).map fun _ => 0 := by
  cases tail with
  | none => rfl
  | some cs => exact integer?_shape cs

/-- The reader takes characters of one shape for numbers of one shape, or none of them for any. -/
theorem parse?_shape (cs : List Char) : parse? (shape cs) = (parse? cs).map zeroed := by
  rw [parse?_eq, parse?_eq]
  have hplaces : ∀ tail : Option (List Char), (tail.map shape).getD [] = shape (tail.getD []) :=
    fun tail => by cases tail <;> rfl
  simp only [unsign_shape, cut_shape isExponentMark_digitChar, cut_shape isPoint_digitChar,
    exponent?_shape, hplaces, digits?_shape]
  cases digits? (cut isPoint (cut isExponentMark (unsign cs).2).1).1 with
  | none => rfl
  | some whole =>
    cases digits? ((cut isPoint (cut isExponentMark (unsign cs).2).1).2.getD []) with
    | none => cases whole <;> rfl
    | some fraction =>
      cases exponent? (cut isExponentMark (unsign cs).2).2 <;> cases whole <;>
        cases fraction <;> rfl

theorem isExponentMark_signChars (s : Sign) : ∀ c ∈ s.chars, isExponentMark c = false := by
  cases s with
  | missing => exact List.forall_mem_nil _
  | plus => exact List.forall_mem_singleton.mpr rfl
  | minus => exact List.forall_mem_singleton.mpr rfl

/-- A numeral is cut before its power, if it has one. -/
theorem cut_chars (n : Numeral) :
    cut isExponentMark n.chars = (n.sign.chars ++ n.mantissa, n.powerTail) := by
  rw [Numeral.chars, cut_append (isExponentMark_signChars n.sign),
    cut_append (isExponentMark_mantissa n), cut_power, List.append_nil]

end Decimal

namespace FixedPoint

variable {precision : Nat} {text : String}

theorem mismatch_iff_parse? : (∃ reason, encode precision text = .error (.mismatch reason)) ↔
    parse? (Text.trim text.toList) = none := by
  rw [encode]
  cases parse? (Text.trim text.toList) with
  | none => simp
  | some d => cases h : ofDecimal? precision d <;> simp [h]

theorem mismatch_iff : (∃ reason, encode precision text = .error (.mismatch reason)) ↔
    ∀ n : Numeral, ¬n.In text := by
  rw [mismatch_iff_parse?, Option.eq_none_iff_forall_ne_some]
  constructor
  · intro h n hn
    exact h n.toDecimal (parse?_eq_some_iff.mpr ⟨n, hn.trim_eq.symm, rfl⟩)
  · intro h d hd
    obtain ⟨n, hn, -⟩ := parse?_eq_some_iff.mp hd
    exact h n (Numeral.in_iff.mpr hn.symm)

/-- Texts of one shape are refused alike, whatever numbers they are and whatever the precision. -/
theorem mismatch_shape {precision' : Nat} {text' : String}
    (h : shape text'.toList = shape text.toList) :
    (∃ reason, encode precision' text' = .error (.mismatch reason)) ↔
      ∃ reason, encode precision text = .error (.mismatch reason) := by
  rw [mismatch_iff_parse?, mismatch_iff_parse?, ← Option.map_eq_none_iff (f := zeroed),
    ← parse?_shape, ← trim_shape, h, trim_shape, parse?_shape, Option.map_eq_none_iff]

/-- There is no numeral in which something else than an integer comes after an exponent's mark. -/
theorem not_in_of_exponent {front tail : List Char} {mark : Char}
    (htext : Text.trim text.toList = front ++ mark :: tail) (hmark : isExponentMark mark = true)
    (hfront : ∀ c ∈ front, isExponentMark c = false)
    (htail : ∀ (s : Sign) (ds : List (Fin 10)), ds ≠ [] → tail ≠ s.chars ++ digitRow ds)
    (n : Numeral) : ¬n.In text := by
  intro hn
  have hcut : cut isExponentMark n.chars = (front, some tail) := by
    rw [← hn.trim_eq, htext, cut_append hfront, cut, if_pos hmark, List.append_nil]
  rw [cut_chars, Prod.mk.injEq, Numeral.powerTail, Option.map_eq_some_iff] at hcut
  obtain ⟨-, p, -, hp⟩ := hcut
  exact htail p.sign p.digits p.digits_ne_nil hp.symm

/-- A text is refused as no number if and only if it is no numeral, with white space around it or
not; numerals are encoded or beyond the field. Neither the precision nor the values of the digits
have a part in this. In particular a faulty exponent is found whatever number stands before it. -/
theorem encode_reads_numerals (precision : Nat) (text : String) :
    ((∃ reason, encode precision text = .error (.mismatch reason)) ↔ ∀ n : Numeral, ¬n.In text) ∧
    (∀ n : Numeral, n.In text →
      (∃ w, encode precision text = .ok w) ∨ encode precision text = .error (.overflow text)) ∧
    (∀ (precision' : Nat) (text' : String), shape text'.toList = shape text.toList →
      ((∃ reason, encode precision' text' = .error (.mismatch reason)) ↔
        ∃ reason, encode precision text = .error (.mismatch reason))) ∧
    ∀ (front tail : List Char) (mark : Char), Text.trim text.toList = front ++ mark :: tail →
      isExponentMark mark = true → (∀ c ∈ front, isExponentMark c = false) →
      (∀ (s : Sign) (ds : List (Fin 10)), ds ≠ [] → tail ≠ s.chars ++ digitRow ds) →
      ∃ reason, encode precision text = .error (.mismatch reason) := by
  refine ⟨mismatch_iff, fun n hn => ?_, fun _ _ => mismatch_shape, ?_⟩
  · cases hencode : encode precision text with
    | ok w => exact .inl ⟨w, rfl⟩
    | error e =>
      rcases encode_eq_error_iff.mp hencode with ⟨hnot, -⟩ | ⟨-, rfl⟩
      · exact absurd hn (hnot n)
      · exact .inr rfl
  · intro front tail mark htext hmark hfront htail
    exact mismatch_iff.mpr (not_in_of_exponent htext hmark hfront htail)

/-- Too large a number with half an exponent is no number. -/
example : encode 10 "99999999999999999999e+" =
    .error (.mismatch (.notDecimal "99999999999999999999e+")) := by decide +kernel

end FixedPoint

end TriShare
