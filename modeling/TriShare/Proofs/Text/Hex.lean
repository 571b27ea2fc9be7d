import TriShare.Proofs.Text.Size
import TriShare.Text.Hex
/-!
Hexadecimal text reads back as the bytes that it was written from. Whatever text is read has two
digits for each of its bytes, and is written again as it was, but in lower case.
-/

namespace TriShare.Hex

theorem value?_digit : ∀ n : Fin 16, value? (digit n) = some n.val := by decide

theorem utf8Size_digit : ∀ n : Fin 16, (digit n).utf8Size = 1 := by decide

/-- The digits of a byte are those of its halves. -/
theorem digits_eq (b : UInt8) : ∃ high low : Fin 16,
    digits b = [digit high, digit low] ∧ 16 * high.val + low.val = b.toNat := by
  have hb := b.toNat_lt
  exact ⟨⟨b.toNat / 16, by omega⟩, ⟨b.toNat % 16, by omega⟩, rfl, Nat.div_add_mod _ _⟩

/-- Whatever holds of every digit holds of every character that is written. -/
theorem forall_mem_digits {P : Char → Prop} (h : ∀ n : Fin 16, P (digit n)) (bytes : List UInt8) :
    ∀ c ∈ bytes.flatMap digits, P c := by
  intro c hc
  obtain ⟨b, -, hc⟩ := List.mem_flatMap.mp hc
  obtain ⟨high, low, hdigits, -⟩ := digits_eq b
  rw [hdigits] at hc
  rcases List.mem_cons.mp hc with rfl | hc
  · exact h high
  · obtain rfl := List.mem_singleton.mp hc
    exact h low

theorem isDigit_of_mem_digits {bytes : List UInt8} {c : Char} (h : c ∈ bytes.flatMap digits) :
    isDigit c = true := by
  refine forall_mem_digits (P := fun c => isDigit c = true) (fun n => ?_) bytes c h
  rw [isDigit, value?_digit]
  rfl

theorem length_flatMap_digits (bytes : List UInt8) :
    (bytes.flatMap digits).length = 2 * bytes.length := by
  induction bytes with
  | nil => rfl
  | cons b bytes ih =>
    rw [List.flatMap_cons, List.length_append, ih, List.length_cons]
    simp only [digits, List.length_cons, List.length_nil]
    omega

theorem length_encode (bytes : List UInt8) : (encode bytes).length = 2 * bytes.length := by
  rw [encode, String.length_ofList, length_flatMap_digits]

theorem utf8ByteSize_encode (bytes : List UInt8) :
    (encode bytes).utf8ByteSize = 2 * bytes.length := by
  rw [encode, Text.utf8ByteSize_of_single (forall_mem_digits utf8Size_digit bytes),
    length_flatMap_digits]

theorem valuesFrom_digits (bytes : List UInt8) : ∀ position, ∃ values,
    valuesFrom position (bytes.flatMap digits) = .ok values ∧ pairUp values = bytes := by
  induction bytes with
  | nil => exact fun _ => ⟨[], rfl, rfl⟩
  | cons b bytes ih =>
    intro position
    obtain ⟨high, low, hdigits, hvalue⟩ := digits_eq b
    obtain ⟨values, hvalues, hpairs⟩ := ih (position + 1 + 1)
    refine ⟨high.val :: low.val :: values, ?_, ?_⟩
    · rw [List.flatMap_cons, hdigits, List.cons_append, List.cons_append, List.nil_append,
        valuesFrom, value?_digit, valuesFrom, value?_digit, hvalues]
      rfl
    · rw [pairUp, hvalue, hpairs, UInt8.ofNat_toNat]

/-- What is written is read back. -/
theorem decode_encode (bytes : List UInt8) : decode (encode bytes) = .ok bytes := by
  obtain ⟨values, hvalues, hpairs⟩ := valuesFrom_digits bytes 0
  rw [decode, utf8ByteSize_encode, if_neg (by omega), encode, String.toList_ofList, hvalues]
  simp only [Except.map, hpairs]

theorem encode_injective : Function.Injective encode := fun bytes bytes' h => by
  have hdecode := congrArg decode h
  rwa [decode_encode, decode_encode, Except.ok.injEq] at hdecode

/-! ### Texts that are read -/

/-- The digits are among the ASCII characters. -/
theorem toNat_lt_of_value? {c : Char} {n : Nat} (h : value? c = some n) : c.toNat < 128 := by
  have hle : c ≤ 'f' := by
    rw [value?] at h
    split at h
    · next hdigit => exact Char.le_trans hdigit.2 (by decide)
    · split at h
      · next hlower => exact hlower.2
      · split at h
        · next hupper => exact Char.le_trans hupper.2 (by decide)
        · cases h
  exact Nat.lt_of_le_of_lt (UInt32.le_iff_toNat_le.mp (Char.le_def.mp hle)) (by decide)

theorem utf8Size_of_isDigit {c : Char} (h : isDigit c = true) : c.utf8Size = 1 := by
  obtain ⟨n, hn⟩ := Option.isSome_iff_exists.mp h
  have hle : c.toNat ≤ 127 := Nat.le_of_lt_succ (toNat_lt_of_value? hn)
  exact Char.utf8Size_eq_one_iff.mpr (UInt32.le_iff_toNat_le.mpr hle)

theorem ne_space_of_isDigit {c : Char} (h : isDigit c = true) : c ≠ ' ' := by
  rintro rfl
  exact absurd h (by decide)

/-- The values that are read are those of the characters, all of which have one. -/
theorem valuesFrom_eq_ok_iff : ∀ {cs : List Char} {position : Nat} {values : List Nat},
    valuesFrom position cs = .ok values ↔ cs.map value? = values.map some
  | [], _, values => by cases values <;> simp [valuesFrom]
  | c :: cs, position, values => by
    have ih := @valuesFrom_eq_ok_iff cs (position + 1)
    rw [valuesFrom, List.map_cons]
    cases hvalue : value? c with
    | none => cases values <;> simp
    | some n =>
      cases values with
      | nil => cases valuesFrom (position + 1) cs <;> simp [Except.map]
      | cons m values =>
        rw [List.map_cons, List.cons.injEq, ← ih]
        cases valuesFrom (position + 1) cs <;> simp [Except.map]

theorem isDigit_of_valuesFrom {cs : List Char} {position : Nat} {values : List Nat}
    (h : valuesFrom position cs = .ok values) : ∀ c ∈ cs, isDigit c = true := by
  intro c hc
  have hmem : value? c ∈ values.map some := by
    rw [← valuesFrom_eq_ok_iff.mp h]
    exact List.mem_map_of_mem hc
  obtain ⟨n, -, hn⟩ := List.mem_map.mp hmem
  rw [isDigit, ← hn]
  rfl

theorem exists_valuesFrom : ∀ {cs : List Char} {position : Nat}, (∀ c ∈ cs, isDigit c = true) →
    ∃ values, valuesFrom position cs = .ok values
  | [], _, _ => ⟨[], rfl⟩
  | c :: cs, position, h => by
    rw [List.forall_mem_cons] at h
    obtain ⟨n, hn⟩ := Option.isSome_iff_exists.mp h.1
    obtain ⟨values, hvalues⟩ := @exists_valuesFrom cs (position + 1) h.2
    refine ⟨n :: values, ?_⟩
    rw [valuesFrom, hn, hvalues]
    rfl

/-- What is read of a text of even size are the values of its characters, two for each byte. -/
theorem decode_eq_ok_iff {text : String} {bytes : List UInt8} : decode text = .ok bytes ↔
    text.utf8ByteSize % 2 = 0 ∧
      ∃ values, valuesFrom 0 text.toList = .ok values ∧ pairUp values = bytes := by
  rw [decode]
  split
  · next hodd =>
    simp only [reduceCtorEq, false_iff, not_and]
    omega
  · next heven =>
    have heven : text.utf8ByteSize % 2 = 0 := by omega
    cases valuesFrom 0 text.toList <;> simp [Except.map, heven]

/-- Digits in an even number of bytes are read. -/
theorem exists_decode {text : String} (heven : text.utf8ByteSize % 2 = 0)
    (hdigits : ∀ c ∈ text.toList, isDigit c = true) : ∃ bytes, decode text = .ok bytes := by
  obtain ⟨values, hvalues⟩ := @exists_valuesFrom text.toList 0 hdigits
  exact ⟨pairUp values, decode_eq_ok_iff.mpr ⟨heven, values, hvalues, rfl⟩⟩

/-- The first character that is no digit is the one that is reported. -/
theorem valuesFrom_append_cons : ∀ {before : List Char} {c : Char} {after : List Char}
    {position : Nat}, (∀ d ∈ before, isDigit d = true) → isDigit c = false →
    valuesFrom position (before ++ c :: after) =
      .error (.badDigit (leadByte c) (position + before.length))
  | [], c, after, position, _, hc => by
    have hvalue : value? c = none := by simpa [isDigit] using hc
    rw [List.nil_append, valuesFrom, hvalue]
    rfl
  | d :: before, c, after, position, h, hc => by
    rw [List.forall_mem_cons] at h
    obtain ⟨n, hn⟩ := Option.isSome_iff_exists.mp h.1
    rw [List.cons_append, valuesFrom, hn, valuesFrom_append_cons h.2 hc, List.length_cons,
      Nat.add_right_comm, Nat.add_assoc]
    rfl

theorem decode_of_bad_digit {text : String} {before after : List Char} {c : Char}
    (heven : text.utf8ByteSize % 2 = 0) (htext : text.toList = before ++ c :: after)
    (hbefore : ∀ d ∈ before, isDigit d = true) (hc : isDigit c = false) :
    decode text = .error (.badDigit (leadByte c) before.length) := by
  rw [decode, if_neg (by omega), htext, valuesFrom_append_cons hbefore hc, Nat.zero_add]
  rfl

theorem length_pairUp : ∀ values : List Nat, (pairUp values).length = values.length / 2
  | [] => rfl
  | [_] => by simp [pairUp]
  | _ :: _ :: rest => by
    rw [pairUp, List.length_cons, length_pairUp rest, List.length_cons, List.length_cons]
    omega

/-- A text that is read has two characters for each byte that it stands for, of one byte each. -/
theorem size_of_decode {text : String} {bytes : List UInt8} (h : decode text = .ok bytes) :
    text.length = 2 * bytes.length ∧ text.utf8ByteSize = 2 * bytes.length := by
  obtain ⟨heven, values, hvalues, rfl⟩ := decode_eq_ok_iff.mp h
  have hlength : text.length = values.length := by
    rw [← String.length_toList]
    simpa using congrArg List.length (valuesFrom_eq_ok_iff.mp hvalues)
  have hsize : text.utf8ByteSize = text.length := Text.utf8ByteSize_eq_length fun c hc =>
    utf8Size_of_isDigit (isDigit_of_valuesFrom hvalues c hc)
  rw [length_pairUp]
  omega

/-- Exactly the digits of either case in an even number are read. -/
theorem exists_decode_iff {text : String} : (∃ bytes, decode text = .ok bytes) ↔
    text.length % 2 = 0 ∧ ∀ c ∈ text.toList, isDigit c = true := by
  constructor
  · rintro ⟨bytes, h⟩
    have hlength := (size_of_decode h).1
    obtain ⟨-, values, hvalues, -⟩ := decode_eq_ok_iff.mp h
    exact ⟨by omega, isDigit_of_valuesFrom hvalues⟩
  · rintro ⟨heven, hdigits⟩
    have hsize := Text.utf8ByteSize_eq_length fun c hc => utf8Size_of_isDigit (hdigits c hc)
    exact exists_decode (hsize ▸ heven) hdigits

theorem isDigit_iff {c : Char} : isDigit c = true ↔
    ('0' ≤ c ∧ c ≤ '9') ∨ ('a' ≤ c ∧ c ≤ 'f') ∨ ('A' ≤ c ∧ c ≤ 'F') := by
  rw [isDigit, value?]
  split_ifs <;> simp [*]

/-! ### Texts that are written again -/

/-- Checked for the ASCII characters, which all digits are among. -/
theorem ascii_digits : ∀ k : Fin 128, ∀ n ∈ value? (Char.ofNat k),
    n < 16 ∧ digit n = (Char.ofNat k).toLower := by decide

/-- The value of a digit is written as that digit in lower case. -/
theorem digit_of_value? {c : Char} {n : Nat} (h : value? c = some n) :
    n < 16 ∧ digit n = c.toLower := by
  have hascii := ascii_digits ⟨c.toNat, toNat_lt_of_value? h⟩ n
  rw [Char.ofNat_toNat] at hascii
  exact hascii h

theorem digits_ofNat {high low : Nat} (hhigh : high < 16) (hlow : low < 16) :
    digits (UInt8.ofNat (16 * high + low)) = [digit high, digit low] := by
  have hvalue : (UInt8.ofNat (16 * high + low)).toNat = 16 * high + low :=
    UInt8.toNat_ofNat_of_lt' (show 16 * high + low < 256 by omega)
  have hdiv : (16 * high + low) / 16 = high := by omega
  have hmod : (16 * high + low) % 16 = low := by omega
  rw [digits, hvalue, hdiv, hmod]

/-- The digits of the bytes that values are paired up to are those of the values. The cases are
those of `pairUp`; a value that is left over does not occur. -/
theorem flatMap_digits_pairUp : ∀ {values : List Nat}, values.length % 2 = 0 →
    (∀ n ∈ values, n < 16) → (pairUp values).flatMap digits = values.map digit
  | [], _, _ => rfl
  | [_], heven, _ => absurd heven (by simp)
  | high :: low :: rest, heven, h => by
    simp only [List.forall_mem_cons] at h
    obtain ⟨hhigh, hlow, hrest⟩ := h
    have heven' : rest.length % 2 = 0 := by
      rw [List.length_cons, List.length_cons] at heven
      omega
    rw [pairUp, List.flatMap_cons, digits_ofNat hhigh hlow, flatMap_digits_pairUp heven' hrest]
    rfl

theorem digits_of_valuesFrom : ∀ {cs : List Char} {position : Nat} {values : List Nat},
    valuesFrom position cs = .ok values →
      (∀ n ∈ values, n < 16) ∧ values.map digit = cs.map Char.toLower := by
  intro cs position values h
  rw [valuesFrom_eq_ok_iff] at h
  induction cs generalizing values with
  | nil =>
    obtain rfl : values = [] := by simpa using h.symm
    simp
  | cons c cs ih =>
    cases values with
    | nil => simp at h
    | cons n values =>
      rw [List.map_cons, List.map_cons, List.cons.injEq] at h
      obtain ⟨hn, hdigit⟩ := digit_of_value? h.1
      obtain ⟨hvalues, hdigits⟩ := ih h.2
      rw [List.map_cons, List.map_cons, hdigit, hdigits, List.forall_mem_cons]
      exact ⟨⟨hn, hvalues⟩, rfl⟩

/-- What was read is written in lower case. -/
theorem encode_of_decode {text : String} {bytes : List UInt8} (h : decode text = .ok bytes) :
    encode bytes = text.toLower := by
  obtain ⟨hlength, -⟩ := size_of_decode h
  obtain ⟨-, values, hvalues, rfl⟩ := decode_eq_ok_iff.mp h
  obtain ⟨hbelow, hdigits⟩ := digits_of_valuesFrom hvalues
  have heven : values.length % 2 = 0 := by
    have hsame : values.length = text.toList.length := by
      simpa using congrArg List.length hdigits
    rw [hsame, String.length_toList, hlength]
    omega
  rw [encode, flatMap_digits_pairUp heven hbelow, hdigits, ← String.toList_map,
    String.ofList_toList]
  rfl

end TriShare.Hex
