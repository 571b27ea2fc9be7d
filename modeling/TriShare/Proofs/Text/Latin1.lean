import TriShare.Text.Latin1
/-!
Single-byte text has as many bytes as characters, and there is one for exactly the texts of
characters up to U+00FF. Of the others the first character above it is reported. Reading is the
inverse of writing.
-/

namespace TriShare.Latin1

theorem length_encodeFrom : ∀ {cs : List Char} {position : Nat} {bytes : List UInt8},
    encodeFrom position cs = .ok bytes → bytes.length = cs.length
  | [], _, _, h => by
    rw [encodeFrom, Except.ok.injEq] at h
    rw [← h, List.length_nil, List.length_nil]
  | c :: cs, position, bytes, h => by
    rw [encodeFrom] at h
    split at h
    · cases hrest : encodeFrom (position + 1) cs with
      | error e => simp [hrest, Except.map] at h
      | ok rest =>
        rw [hrest, Except.map, Except.ok.injEq] at h
        rw [← h, List.length_cons, List.length_cons, length_encodeFrom hrest]
    · simp at h

/-- There is one byte for each character. -/
theorem length_encode {text : String} {bytes : List UInt8} (h : encode text = .ok bytes) :
    bytes.length = text.length := by
  rw [length_encodeFrom h, String.length_toList]

theorem exists_encodeFrom : ∀ {cs : List Char} {position : Nat},
    (∃ bytes, encodeFrom position cs = .ok bytes) ↔ ∀ c ∈ cs, c.toNat ≤ 0xFF
  | [], position => by simp [encodeFrom]
  | c :: cs, position => by
    have ih := @exists_encodeFrom cs (position + 1)
    rw [List.forall_mem_cons, ← ih, encodeFrom]
    split
    · next hc =>
      cases hrest : encodeFrom (position + 1) cs with
      | error e => simp [Except.map]
      | ok rest => simpa [Except.map] using Nat.le_of_lt_succ hc
    · next hc =>
      constructor
      · rintro ⟨bytes, hbytes⟩
        cases hbytes
      · rintro ⟨hle, -⟩
        exact absurd (Nat.lt_succ_of_le hle) hc

/-- The characters up to U+00FF are those that can be written. -/
theorem exists_encode {text : String} :
    (∃ bytes, encode text = .ok bytes) ↔ ∀ c ∈ text.toList, c.toNat ≤ 0xFF :=
  exists_encodeFrom

theorem encodeFrom_eq_error_iff : ∀ {cs : List Char} {position : Nat} {found : Unencodable},
    encodeFrom position cs = .error found ↔ ∃ before c after, cs = before ++ c :: after ∧
      (∀ d ∈ before, d.toNat ≤ 0xFF) ∧ 0xFF < c.toNat ∧ found = ⟨c, position + before.length⟩
  | [], position, found => by simp [encodeFrom]
  | c :: cs, position, found => by
    have ih := @encodeFrom_eq_error_iff cs (position + 1) found
    rw [encodeFrom]
    simp only [List.cons_eq_append_iff]
    split
    · next hc =>
      have hmap : (encodeFrom (position + 1) cs).map (UInt8.ofNat c.toNat :: ·) = .error found ↔
          encodeFrom (position + 1) cs = .error found := by
        cases encodeFrom (position + 1) cs <;> simp [Except.map]
      have hplace : ∀ n, position + 1 + n = position + (n + 1) := by omega
      rw [hmap, ih]
      constructor
      · rintro ⟨before, d, after, rfl, hbefore, hd, rfl⟩
        refine ⟨c :: before, d, after, .inr ⟨before, rfl, rfl⟩, ?_, hd, ?_⟩
        · exact List.forall_mem_cons.mpr ⟨Nat.le_of_lt_succ hc, hbefore⟩
        · rw [List.length_cons, hplace]
      · rintro ⟨before, d, after, ⟨rfl, heq⟩ | ⟨tail, rfl, rfl⟩, hbefore, hd, rfl⟩
        · obtain ⟨rfl, -⟩ := List.cons.inj heq
          omega
        · refine ⟨tail, d, after, rfl, (List.forall_mem_cons.mp hbefore).2, hd, ?_⟩
          rw [List.length_cons, hplace]
    · next hc =>
      constructor
      · intro h
        exact ⟨[], c, cs, .inl ⟨rfl, rfl⟩, by simp, by omega, (Except.error.inj h).symm⟩
      · rintro ⟨before, d, after, ⟨rfl, heq⟩ | ⟨tail, rfl, -⟩, hbefore, -, rfl⟩
        · obtain ⟨rfl, -⟩ := List.cons.inj heq
          rfl
        · exact absurd (Nat.lt_succ_of_le (hbefore c List.mem_cons_self)) hc

/-- The first character above U+00FF is the one that is reported, with its place. -/
theorem encode_eq_error_iff {text : String} {found : Unencodable} :
    encode text = .error found ↔ ∃ before c after, text.toList = before ++ c :: after ∧
      (∀ d ∈ before, d.toNat ≤ 0xFF) ∧ 0xFF < c.toNat ∧ found = ⟨c, before.length⟩ := by
  rw [encode, encodeFrom_eq_error_iff]
  simp only [Nat.zero_add]

/-! ### Reading -/

theorem toNat_charOf (b : UInt8) : (charOf b).toNat = b.toNat := by
  have hvalid : b.toNat.isValidChar := .inl (Nat.lt_trans b.toNat_lt (by decide))
  rw [charOf, Char.ofNat, dif_pos hvalid]
  rfl

theorem charOf_ofNat {c : Char} (h : c.toNat < 256) : charOf (UInt8.ofNat c.toNat) = c := by
  rw [charOf, UInt8.toNat_ofNat_of_lt' h, Char.ofNat_toNat]

theorem encodeFrom_map_charOf (bytes : List UInt8) : ∀ position,
    encodeFrom position (bytes.map charOf) = .ok bytes := by
  induction bytes with
  | nil => exact fun _ => rfl
  | cons b bytes ih =>
    intro position
    have hb : (charOf b).toNat < 256 := by
      rw [toNat_charOf]
      exact b.toNat_lt
    rw [List.map_cons, encodeFrom, if_pos hb, ih (position + 1), toNat_charOf, UInt8.ofNat_toNat]
    rfl

/-- All byte strings are read, each as a text that is written as that byte string. -/
theorem encode_decode (bytes : List UInt8) : encode (decode bytes) = .ok bytes := by
  rw [encode, decode, String.toList_ofList, encodeFrom_map_charOf]

theorem map_charOf_of_encodeFrom : ∀ {cs : List Char} {position : Nat} {bytes : List UInt8},
    encodeFrom position cs = .ok bytes → bytes.map charOf = cs
  | [], _, _, h => by
    rw [encodeFrom, Except.ok.injEq] at h
    rw [← h, List.map_nil]
  | c :: cs, position, bytes, h => by
    rw [encodeFrom] at h
    split at h
    · next hc =>
      cases hrest : encodeFrom (position + 1) cs with
      | error e => simp [hrest, Except.map] at h
      | ok rest =>
        rw [hrest, Except.map, Except.ok.injEq] at h
        rw [← h, List.map_cons, charOf_ofNat hc, map_charOf_of_encodeFrom hrest]
    · simp at h

/-- The bytes that are written are those that are read as the text. -/
theorem encode_eq_ok_iff {text : String} {bytes : List UInt8} :
    encode text = .ok bytes ↔ decode bytes = text := by
  constructor
  · intro h
    rw [decode, map_charOf_of_encodeFrom h, String.ofList_toList]
  · rintro rfl
    exact encode_decode bytes

end TriShare.Latin1
