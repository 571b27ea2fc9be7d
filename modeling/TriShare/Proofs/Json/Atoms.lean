import TriShare.Json.Reader
import TriShare.Json.Writer
import TriShare.Proofs.Number.Written
import TriShare.Proofs.Text.Hex
/-!
Strings and integers of a document are read as they were written. A string is complete at its second
quote; a number only at the first character behind it, which is why a run over a number is followed
by what breaks it off (`Reader.Passes`).
-/

namespace TriShare.Json.Reader

variable {known : String → Bool} {stack : List Frame} {s s' s'' : State} {cs cs' : List Char}

/-! ### Runs -/

/-- Reading several characters. -/
def run (known : String → Bool) (s : State) (cs : List Char) : Option State :=
  cs.foldlM (step known) s

@[simp] theorem run_nil (s : State) : run known s [] = some s := rfl

theorem run_cons (s : State) (c : Char) (cs : List Char) :
    run known s (c :: cs) = (step known s c).bind fun s => run known s cs := rfl

theorem run_cons_of {c : Char} (h : step known s c = some s') (cs : List Char) :
    run known s (c :: cs) = run known s' cs := by
  rw [run_cons, h, Option.bind_some]

theorem run_append_of (h : run known s cs = some s') (cs' : List Char) :
    run known s (cs ++ cs') = run known s' cs' := by
  rw [run, List.foldlM_append]
  change (run known s cs).bind _ = _
  rw [h]
  rfl

/-- The text goes on with a character that does not belong to a number. -/
def Breaks (after : List Char) : Prop := ∃ c rest, after = c :: rest ∧ isNumberChar c = false

/-- Characters lead from one state to another, as soon as it is certain that they are all. -/
def Passes (known : String → Bool) (s : State) (cs : List Char) (s' : State) : Prop :=
  ∀ after, Breaks after → run known s (cs ++ after) = run known s' after

theorem passes_of_run (h : run known s cs = some s') : Passes known s cs s' :=
  fun after _ => run_append_of h after

theorem Passes.cons {c : Char} (h : step known s c = some s') (h' : Passes known s' cs s'') :
    Passes known s (c :: cs) s'' := by
  intro after hafter
  rw [List.cons_append, run_cons_of h, h' after hafter]

/-- What follows has to break off a number at the end of what was read before. -/
theorem Passes.append (h : Passes known s cs s') (h' : Passes known s' cs' s'')
    (hbreaks : ∀ after, Breaks after → Breaks (cs' ++ after)) : Passes known s (cs ++ cs') s'' := by
  intro after hafter
  rw [List.append_assoc, h _ (hbreaks after hafter), h' after hafter]

/-! ### Strings -/

theorem step_text (role : Role) (units : List Nat) (escape : Escape) (c : Char) :
    step known ⟨stack, .text role units escape⟩ c = stepText known stack role units escape c := rfl

/-- Most characters stand for themselves. -/
theorem step_plain (role : Role) (units : List Nat) {c : Char} (hquote : c ≠ '"')
    (hslash : c ≠ '\\') (hcontrol : ¬c.toNat < 0x20) :
    step known ⟨stack, .text role units .outside⟩ c =
      some ⟨stack, .text role (c.toNat :: units) .outside⟩ := by
  rw [step_text, stepText]
  simp [hquote, hslash, hcontrol]

theorem step_hexDigit (role : Role) (units : List Nat) (missing value : Nat) (d : Fin 16) :
    step known ⟨stack, .text role units (.digits (missing + 2) value)⟩ (Hex.digit d) =
      some ⟨stack, .text role units (.digits (missing + 1) (16 * value + d))⟩ := by
  rw [step_text, stepText, Hex.value?_digit]
  simp

theorem step_lastHexDigit (role : Role) (units : List Nat) (value : Nat) (d : Fin 16) :
    step known ⟨stack, .text role units (.digits 1 value)⟩ (Hex.digit d) =
      some ⟨stack, .text role ((16 * value + d) :: units) .outside⟩ := by
  rw [step_text, stepText, Hex.value?_digit]
  simp

/-- A control character is written as its number. -/
theorem run_control (role : Role) (units : List Nat) (b : UInt8) :
    run known ⟨stack, .text role units .outside⟩ ("\\u00" ++ Hex.encode [b]).toList =
      some ⟨stack, .text role (b.toNat :: units) .outside⟩ := by
  obtain ⟨high, low, hdigits, hb⟩ := Hex.digits_eq b
  have htext : ("\\u00" ++ Hex.encode [b]).toList =
      ['\\', 'u', Hex.digit (0 : Fin 16), Hex.digit (0 : Fin 16), Hex.digit high,
        Hex.digit low] := by
    have hbyte : (Hex.encode [b]).toList = [Hex.digit high, Hex.digit low] := by
      rw [Hex.encode, String.toList_ofList, List.flatMap_cons, hdigits]
      rfl
    rw [String.toList_append, hbyte]
    rfl
  have hbegin : step known ⟨stack, .text role units .outside⟩ '\\' =
      some ⟨stack, .text role units .begun⟩ := rfl
  have hdigit : step known ⟨stack, .text role units .begun⟩ 'u' =
      some ⟨stack, .text role units (.digits 4 0)⟩ := rfl
  rw [htext, run_cons_of hbegin, run_cons_of hdigit, run_cons_of (step_hexDigit role units 2 0 0),
    run_cons_of (step_hexDigit role units 1 _ 0), run_cons_of (step_hexDigit role units 0 _ high),
    run_cons_of (step_lastHexDigit role units _ low), run_nil]
  simp [hb]

/-- A character that is written is read as one unit. -/
theorem run_escapeChar (role : Role) (units : List Nat) (c : Char) :
    run known ⟨stack, .text role units .outside⟩ (escapeChar c).toList =
      some ⟨stack, .text role (c.toNat :: units) .outside⟩ := by
  unfold escapeChar
  split
  · rfl
  · rfl
  · rfl
  · rfl
  · rfl
  · rfl
  · rfl
  · next hquote hslash _ _ _ _ _ =>
    split
    · next hcontrol =>
      have hbyte : (UInt8.ofNat c.toNat).toNat = c.toNat :=
        Nat.mod_eq_of_lt (hcontrol.trans (by decide))
      rw [run_control, hbyte]
    · next hcontrol =>
      have hsingle : c.toString.toList = [c] := by simp
      rw [hsingle, run_cons_of (step_plain role units hquote hslash hcontrol), run_nil]

theorem run_escaped (role : Role) : ∀ (cs : List Char) (units : List Nat),
    run known ⟨stack, .text role units .outside⟩ (cs.flatMap fun c => (escapeChar c).toList) =
      some ⟨stack, .text role ((cs.map Char.toNat).reverse ++ units) .outside⟩
  | [], _ => rfl
  | c :: cs, units => by
    rw [List.flatMap_cons, run_append_of (run_escapeChar role units c), run_escaped role cs]
    simp

/-- No character is half of a pair of surrogates. -/
theorem not_surrogate (c : Char) : isLead c.toNat = false ∧ isTrail c.toNat = false := by
  have hvalid : c.toNat < 0xD800 ∨ 0xDFFF < c.toNat ∧ c.toNat < 0x110000 := c.valid
  simp only [isLead, isTrail, Bool.and_eq_false_iff, decide_eq_false_iff_not]
  omega

/-- The units of characters make up the characters. -/
theorem charsOf_map_toNat : ∀ cs : List Char, charsOf (cs.map Char.toNat) = some cs
  | [] => rfl
  | [c] => by
    obtain ⟨hlead, htrail⟩ := not_surrogate c
    simp [charsOf, hlead, htrail, Char.ofNat_toNat]
  | c :: d :: cs => by
    obtain ⟨hlead, htrail⟩ := not_surrogate c
    have ih := charsOf_map_toNat (d :: cs)
    rw [List.map_cons] at ih
    rw [List.map_cons, List.map_cons, charsOf, hlead, htrail, ih]
    simp [Char.ofNat_toNat]

/-- A string ends with the characters that it was written from. -/
theorem endText_map_toNat (known : String → Bool) (stack : List Frame) (role : Role)
    (text : String) : endText known stack role ((text.toList.map Char.toNat).reverse) =
      some (match role with
        | .value => complete known (.string text) stack
        | .name done => ⟨stack, .colon done text⟩) := by
  have hchars : (charsOf (text.toList.map Char.toNat)).map String.ofList = some text := by
    rw [charsOf_map_toNat, Option.map_some, String.ofList_toList]
  cases role <;> simp [endText, hchars]

theorem toList_quote (text : String) : (quote text).toList =
    '"' :: ((text.toList.flatMap fun c => (escapeChar c).toList) ++ ['"']) := by
  rw [quote, String.toList_append, String.toList_append, String.toList_join, List.flatMap_map]
  rfl

/-- The rest of a string is read up to its second quote. -/
theorem run_quoted (role : Role) (text : String) :
    run known ⟨stack, .text role [] .outside⟩
        ((text.toList.flatMap fun c => (escapeChar c).toList) ++ ['"']) =
      some (match role with
        | .value => complete known (.string text) stack
        | .name done => ⟨stack, .colon done text⟩) := by
  have hend : step known ⟨stack, .text role (text.toList.map Char.toNat).reverse .outside⟩ '"' =
      endText known stack role ((text.toList.map Char.toNat).reverse) := rfl
  rw [run_append_of (run_escaped role text.toList []), List.append_nil, run_cons, hend,
    endText_map_toNat]
  rfl

/-- A string is read as a value. -/
theorem run_quote_value (text : String) (mayClose : Bool) :
    run known ⟨stack, .value mayClose⟩ (quote text).toList =
      some (complete known (.string text) stack) := by
  have hbegin : step known ⟨stack, .value mayClose⟩ '"' =
      some ⟨stack, .text .value [] .outside⟩ := rfl
  rw [toList_quote, run_cons_of hbegin, run_quoted]

/-- A string is read as the name of a field. -/
theorem run_quote_name (text : String) (done : List (String × Json)) (mayClose : Bool) :
    run known ⟨stack, .name done mayClose⟩ (quote text).toList =
      some ⟨stack, .colon done text⟩ := by
  have hbegin : step known ⟨stack, .name done mayClose⟩ '"' =
      some ⟨stack, .text (.name done) [] .outside⟩ := rfl
  rw [toList_quote, run_cons_of hbegin, run_quoted]

/-! ### Integers -/

theorem isNumberChar_digitChar : ∀ d : Fin 10, isNumberChar (digitChar d) = true := by decide

theorem step_digit (mayClose : Bool) (d : Fin 10) :
    step known ⟨stack, .value mayClose⟩ (digitChar d) = some ⟨stack, .number [digitChar d]⟩ := by
  fin_cases d <;> rfl

theorem step_minus (mayClose : Bool) :
    step known ⟨stack, .value mayClose⟩ '-' = some ⟨stack, .number ['-']⟩ := rfl

theorem step_number {c : Char} (hc : isNumberChar c = true) (literal : List Char) :
    step known ⟨stack, .number literal⟩ c = some ⟨stack, .number (c :: literal)⟩ :=
  if_pos hc

theorem run_number : ∀ {cs : List Char} (literal : List Char),
    (∀ c ∈ cs, isNumberChar c = true) →
      run known ⟨stack, .number literal⟩ cs = some ⟨stack, .number (cs.reverse ++ literal)⟩
  | [], literal, _ => rfl
  | c :: cs, literal, h => by
    obtain ⟨hc, hcs⟩ := List.forall_mem_cons.mp h
    rw [run_cons_of (step_number hc literal), run_number (c :: literal) hcs, List.reverse_cons,
      List.append_assoc, List.singleton_append]

/-- Behind a finished value there is nothing but structure. -/
theorem step_complete (v : Json) (stack : List Frame) (c : Char) :
    step known (complete known v stack) c = stepBetween known (complete known v stack) c := by
  cases stack with
  | nil => rfl
  | cons frame stack =>
    cases frame with
    | items done => rfl
    | field done name => cases stack <;> rfl

/-- A number is complete as soon as it is broken off. -/
theorem passes_number {literal : List Char} {v : Json}
    (h : endNumber known stack literal = some (complete known v stack)) :
    Passes known ⟨stack, .number literal⟩ [] (complete known v stack) := by
  rintro after ⟨c, rest, rfl, hc⟩
  have hstep : step known ⟨stack, .number literal⟩ c = step known (complete known v stack) c := by
    rw [step_complete]
    unfold step
    simp only [hc, Bool.false_eq_true, if_false, h, Option.bind_some]
  rw [List.nil_append, run_cons, run_cons, hstep]

/-- The digits of an integer that is not zero do not begin with one. -/
theorem exists_toDigits {n : Nat} (hn : 0 < n) : ∃ (d : Fin 10) (ds : List (Fin 10)),
    Nat.toDigits 10 n = digitRow (d :: ds) ∧ d ≠ 0 := by
  obtain ⟨row, hrow, hvalue⟩ := exists_row n
  obtain ⟨d, ds, rfl⟩ := List.exists_cons_of_ne_nil (row_ne_nil hrow)
  refine ⟨d, ds, hrow, ?_⟩
  rintro rfl
  have hle := Double.pow_length_toDigits_le hn
  have hlt := rowValue_lt ds
  have hzero : rowValue [0] = 0 := rfl
  rw [hrow, length_digitRow, List.length_cons, Nat.add_sub_cancel, ← hvalue,
    ← List.singleton_append, rowValue_append, hzero, Nat.zero_mul, Nat.zero_add] at hle
  exact absurd hlt (Nat.not_lt.mpr hle)

theorem digitChar_ne_zero : ∀ d : Fin 10, d ≠ 0 → digitChar d ≠ '0' := by decide

theorem isWhole_toDigits (n : Nat) : isWhole (Nat.toDigits 10 n) = true := by
  rcases Nat.eq_zero_or_pos n with rfl | hn
  · rfl
  · obtain ⟨d, ds, hrow, hd⟩ := exists_toDigits hn
    have hfirst := digitChar_ne_zero d hd
    have hdigits := digits?_digitRow (d :: ds)
    rw [hrow]
    rw [digitRow, List.map_cons] at hdigits ⊢
    unfold isWhole
    split
    · next heq => cases heq
    · next heq => exact absurd (List.cons.inj heq).1 hfirst
    · next heq =>
      obtain ⟨rfl, rfl⟩ := List.cons.inj heq
      simp [hfirst, hdigits]

/-- The digits of an integer are cut nowhere. -/
theorem cut_toDigits {separates : Char → Bool} (h : ∀ d, separates (digitChar d) = false)
    (n : Nat) : Decimal.cut separates (Nat.toDigits 10 n) = (Nat.toDigits 10 n, none) := by
  obtain ⟨row, hrow, -⟩ := exists_row n
  have hcut := cut_digitRow h row []
  rw [List.append_nil] at hcut
  rw [hrow, hcut]
  simp [Decimal.cut]

theorem isLiteral_integerText (n : Int) : isLiteral (Number.integerText n) = true := by
  have hpower := cut_toDigits isExponentMark_digitChar n.natAbs
  have hpoint := cut_toDigits isPoint_digitChar n.natAbs
  have hwhole := isWhole_toDigits n.natAbs
  rcases lt_or_ge n 0 with hneg | hneg
  · rw [Number.integerText, if_pos hneg]
    simp [isLiteral, hpower, hpoint, hwhole, Decimal.exponent?]
  · rw [Number.integerText, if_neg (not_lt.mpr hneg)]
    obtain ⟨row, hrow, -⟩ := exists_row n.natAbs
    obtain ⟨d, ds, rfl⟩ := List.exists_cons_of_ne_nil (row_ne_nil hrow)
    have hminus : ∀ cs, Nat.toDigits 10 n.natAbs ≠ '-' :: cs := by
      intro cs heq
      rw [hrow, digitRow, List.map_cons] at heq
      exact (digitChar_ne_sign d).1 (List.cons.inj heq).1
    unfold isLiteral
    split
    · next heq => exact absurd heq (hminus _)
    · simp [hpower, hpoint, hwhole, Decimal.exponent?]

/-- An integer is written without a point and without a power of ten. -/
theorem exists_integerText (n : Int) : ∃ row : List (Fin 10), row ≠ [] ∧
    rowValue row = n.natAbs ∧
      Number.integerText n = (if n < 0 then Sign.minus else .missing).chars ++ digitRow row := by
  obtain ⟨row, hrow, hvalue⟩ := exists_row n.natAbs
  refine ⟨row, row_ne_nil hrow, hvalue, ?_⟩
  rw [Number.integerText, hrow]
  split <;> rfl

theorem mem_integerText {n : Int} {c : Char} (h : c ∈ Number.integerText n) :
    c = '-' ∨ ∃ d, c = digitChar d := by
  obtain ⟨row, -, -, htext⟩ := exists_integerText n
  rw [htext] at h
  rcases List.mem_append.mp h with h | h
  · left
    by_cases hneg : n < 0
    · simpa [hneg, Sign.chars] using h
    · simp [hneg, Sign.chars] at h
  · obtain ⟨d, -, rfl⟩ := List.mem_map.mp h
    exact .inr ⟨d, rfl⟩

/-- An integer of 64 bits is read back from its text. -/
theorem ofLiteral?_integerText {n : Int} (h : Number.isExact n = true) :
    Number.ofLiteral? (Number.integerText n) = some (.integer n) := by
  obtain ⟨row, hrow, hvalue, htext⟩ := exists_integerText n
  let m : Numeral :=
    ⟨if n < 0 then .minus else .missing, row, none, none, by simpa using hrow⟩
  have hchars : Number.integerText n = m.chars := by
    rw [htext]
    simp [m, Numeral.chars, Numeral.mantissa]
  have hplain : (Number.integerText n).any
      (fun c => Decimal.isPoint c || Decimal.isExponentMark c) = false := by
    rw [List.any_eq_false]
    intro c hc
    rcases mem_integerText hc with rfl | ⟨d, rfl⟩
    · decide
    · simp [isPoint_digitChar, isExponentMark_digitChar]
  have hdigits : Decimal.ofDigits m.toDecimal.digits = n.natAbs := by
    rw [← hvalue]
    simp [m, Numeral.toDecimal, Numeral.places, Decimal.digits, rowValue]
  have hsign : m.toDecimal.negative = decide (n < 0) := by
    by_cases hneg : n < 0 <;> simp [m, Numeral.toDecimal, hneg, Sign.isMinus]
  have hsigned : (if m.toDecimal.negative then -(n.natAbs : Int) else n.natAbs) = n := by
    rw [hsign]
    by_cases hneg : n < 0 <;> simp only [hneg, decide_true, decide_false, if_true,
      Bool.false_eq_true, if_false] <;> omega
  have hzero : (m.toDecimal.negative && n.natAbs == 0) = false := by
    rw [hsign]
    by_cases hneg : n < 0
    · simp [hneg, hneg.ne]
    · simp [hneg]
  have hparse : Decimal.parse? (Number.integerText n) = some m.toDecimal := by
    rw [hchars, parse?_chars]
  simp only [Number.ofLiteral?, hparse, hplain, hdigits, hsigned, h, hzero, Bool.not_false,
    Bool.and_self, if_true]

theorem endNumber_integerText {n : Int} (h : Number.isExact n = true)
    (hskips : skips known stack = false) :
    endNumber known stack (Number.integerText n).reverse =
      some (complete known (.number (.integer n)) stack) := by
  simp only [endNumber, List.reverse_reverse, isLiteral_integerText, hskips, Bool.not_true,
    Bool.false_eq_true, if_false, ofLiteral?_integerText h, Option.map_some]

theorem step_integerText {n : Int} {c : Char} {cs : List Char}
    (h : Number.integerText n = c :: cs) (mayClose : Bool) :
    step known ⟨stack, .value mayClose⟩ c = some ⟨stack, .number [c]⟩ := by
  obtain ⟨row, hrow, -, htext⟩ := exists_integerText n
  obtain ⟨d, ds, rfl⟩ := List.exists_cons_of_ne_nil hrow
  rw [htext] at h
  by_cases hneg : n < 0
  · rw [if_pos hneg] at h
    obtain ⟨rfl, -⟩ := List.cons.inj h
    exact step_minus mayClose
  · rw [if_neg hneg] at h
    obtain ⟨rfl, -⟩ := List.cons.inj h
    exact step_digit mayClose d

/-- An integer is read as a value. -/
theorem passes_integer {n : Int} (h : Number.isExact n = true) (hskips : skips known stack = false)
    (mayClose : Bool) :
    Passes known ⟨stack, .value mayClose⟩ (Number.integerText n)
      (complete known (.number (.integer n)) stack) := by
  cases htext : Number.integerText n with
  | nil =>
    have hliteral := isLiteral_integerText n
    rw [htext] at hliteral
    cases hliteral
  | cons c cs =>
    have hchars : ∀ d ∈ cs, isNumberChar d = true := by
      intro d hd
      have hmem : d ∈ Number.integerText n := htext ▸ List.mem_cons_of_mem c hd
      rcases mem_integerText hmem with rfl | ⟨d, rfl⟩
      · rfl
      · exact isNumberChar_digitChar d
    have hread : run known ⟨stack, .value mayClose⟩ (c :: cs) =
        some ⟨stack, .number (Number.integerText n).reverse⟩ := by
      rw [run_cons_of (step_integerText htext mayClose), run_number [c] hchars, htext,
        List.reverse_cons]
    intro after hafter
    rw [run_append_of hread]
    exact passes_number (endNumber_integerText h hskips) after hafter

end TriShare.Json.Reader
