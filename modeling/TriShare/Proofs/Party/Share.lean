import TriShare.Party.Share
import TriShare.Proofs.Text.Hex
/-!
Texts that are read as shares (`parse_eq_ok_iff`). The text of a share reads back as the share: its
halves are digits, none of which is a space, so the text is cut where it was put together.
-/

namespace TriShare.PartyShare

/-- A text is a share whose halves have the digits of `n` bytes, and these bytes. -/
def ReadsAs (n : Nat) (text : String) (t s : List UInt8) : Prop :=
  ∃ share, parse text = .ok share ∧ share.t.length = 2 * n ∧ share.s.length = 2 * n ∧
    Hex.decode share.t = .ok t ∧ Hex.decode share.s = .ok s

/-- Digits and spaces take one byte each. -/
theorem utf8ByteSize_of_spaced {digits : String}
    (h : ∀ c ∈ digits.toList, c ≠ ' ' → Hex.isDigit c = true) :
    digits.utf8ByteSize = digits.length :=
  Text.utf8ByteSize_eq_length fun c hc => by
    by_cases hspace : c = ' '
    · rw [hspace]
      rfl
    · exact Hex.utf8Size_of_isDigit (h c hc hspace)

/-- Digits of one byte at least. -/
structure IsHalf (digits : String) : Prop where
  ne_empty : digits ≠ ""
  even : digits.length % 2 = 0
  digits : ∀ c ∈ digits.toList, Hex.isDigit c = true

theorem isHalf_encode {bytes : List UInt8} (h : bytes ≠ []) : IsHalf (Hex.encode bytes) where
  ne_empty := by
    have hpos := List.length_pos_of_ne_nil h
    have hlength := Hex.length_encode bytes
    rintro heq
    rw [heq, String.length_empty] at hlength
    omega
  even := by rw [Hex.length_encode, Nat.mul_mod_right]
  digits c hc := by
    rw [Hex.encode, String.toList_ofList] at hc
    exact Hex.isDigit_of_mem_digits hc

namespace IsHalf

variable {digits : String}

theorem utf8ByteSize_eq (h : IsHalf digits) : digits.utf8ByteSize = digits.length :=
  utf8ByteSize_of_spaced fun c hc _ => h.digits c hc

/-- What has as many digits as a half, and no spaces among them, is a half. -/
theorem of_length {digits' : String} (h : IsHalf digits) (hlength : digits'.length = digits.length)
    (hdigits : ∀ c ∈ digits'.toList, c ≠ ' ' → Hex.isDigit c = true)
    (hspace : ' ' ∉ digits'.toList) : IsHalf digits' where
  ne_empty := by
    rintro rfl
    exact h.ne_empty (String.length_eq_zero_iff.mp hlength.symm)
  even := hlength ▸ h.even
  digits c hc := by
    refine hdigits c hc ?_
    rintro rfl
    exact hspace hc

theorem exists_decode (h : IsHalf digits) : ∃ bytes, Hex.decode digits = .ok bytes :=
  Hex.exists_decode (h.utf8ByteSize_eq ▸ h.even) h.digits

end IsHalf

/-! ### The cut at the first space -/

theorem halves?_append : ∀ {t : List Char} (s : List Char), (∀ c ∈ t, c ≠ ' ') →
    halves? (t ++ ' ' :: s) = some (t, s)
  | [], s, _ => by rw [List.nil_append, halves?, if_pos rfl]
  | c :: t, s, h => by
    rw [List.cons_append, halves?, if_neg (h c List.mem_cons_self),
      halves?_append s fun d hd => h d (List.mem_cons_of_mem _ hd)]
    rfl

theorem eq_of_halves? : ∀ {cs t s : List Char}, halves? cs = some (t, s) →
    cs = t ++ ' ' :: s ∧ ∀ c ∈ t, c ≠ ' '
  | [], _, _, h => by simp [halves?] at h
  | c :: cs, t, s, h => by
    rw [halves?] at h
    split at h
    · next hc =>
      simp only [Option.some.injEq, Prod.mk.injEq] at h
      rw [← h.1, ← h.2, hc, List.nil_append]
      exact ⟨rfl, by simp⟩
    · next hc =>
      obtain ⟨⟨t', s'⟩, hhalves, heq⟩ := Option.map_eq_some_iff.mp h
      simp only [Prod.mk.injEq] at heq
      obtain ⟨hcs, ht⟩ := eq_of_halves? hhalves
      rw [← heq.1, ← heq.2, List.cons_append, ← hcs, List.forall_mem_cons]
      exact ⟨rfl, hc, ht⟩

/-! ### Reading -/

theorem toList_text (share : PartyShare) :
    share.text.toList = share.t.toList ++ ' ' :: share.s.toList := by
  rw [text, String.toList_append, String.toList_append, List.append_assoc]
  rfl

theorem length_text (share : PartyShare) :
    share.text.length = share.t.length + share.s.length + 1 := by
  rw [← String.length_toList, toList_text, List.length_append, List.length_cons,
    String.length_toList, String.length_toList, Nat.add_assoc]

/-- Nothing is wrong with halves of one even size that is not zero, where all characters but spaces
are digits. -/
theorem fault?_eq_none_iff {text t s : String} : fault? text t s = none ↔
    t ≠ "" ∧ t.utf8ByteSize = s.utf8ByteSize ∧
      (∀ c ∈ text.toList, c ≠ ' ' → Hex.isDigit c = true) ∧ t.utf8ByteSize % 2 = 0 := by
  have hdigits : (text.toList.filter (· ≠ ' ')).all Hex.isDigit = true ↔
      ∀ c ∈ text.toList, c ≠ ' ' → Hex.isDigit c = true := by
    simp [or_iff_not_imp_left]
  rw [← hdigits, ← String.isEmpty_eq_false_iff, fault?]
  grind

theorem parse_eq_ok_iff_halves? {text : String} {share : PartyShare} : parse text = .ok share ↔
    halves? text.toList = some (share.t.toList, share.s.toList) ∧
      fault? text share.t share.s = none := by
  rw [parse]
  cases halves? text.toList with
  | none => simp
  | some halves =>
    obtain ⟨t, s⟩ := halves
    simp only [Option.some.injEq, Prod.mk.injEq]
    constructor
    · intro h
      split at h
      · cases h
      · next hfault =>
        rw [← Except.ok.inj h]
        exact ⟨⟨String.toList_ofList.symm, String.toList_ofList.symm⟩, hfault⟩
    · rintro ⟨⟨rfl, rfl⟩, hfault⟩
      rw [String.ofList_toList, String.ofList_toList, hfault]

/-- What is read as a share is that share written out. The second half is as long as the first one
and has no characters but digits and spaces. -/
theorem parse_eq_ok_iff {text : String} {share : PartyShare} : parse text = .ok share ↔
    share.text = text ∧ IsHalf share.t ∧ share.s.length = share.t.length ∧
      ∀ c ∈ share.s.toList, c ≠ ' ' → Hex.isDigit c = true := by
  rw [parse_eq_ok_iff_halves?, fault?_eq_none_iff]
  constructor
  · rintro ⟨hhalves, hne, hsizes, hdigits, heven⟩
    obtain ⟨htext, hspace⟩ := eq_of_halves? hhalves
    -- Spaces are passed over in both halves, but the first one ends at the first space.
    rw [htext, List.forall_mem_append, List.forall_mem_cons] at hdigits
    obtain ⟨ht, -, hs⟩ := hdigits
    have hlength := utf8ByteSize_of_spaced ht
    have hlength' := utf8ByteSize_of_spaced hs
    refine ⟨?_, ⟨hne, hlength ▸ heven, fun c hc => ht c hc (hspace c hc)⟩, by omega, hs⟩
    rw [← String.toList_inj, toList_text, htext]
  · rintro ⟨rfl, ht, hlength, hs⟩
    have hspace : ∀ c ∈ share.t.toList, c ≠ ' ' :=
      fun c hc => Hex.ne_space_of_isDigit (ht.digits c hc)
    rw [toList_text, List.forall_mem_append, List.forall_mem_cons, ht.utf8ByteSize_eq,
      utf8ByteSize_of_spaced hs, hlength]
    exact ⟨halves?_append _ hspace, ht.ne_empty, rfl,
      ⟨fun c hc _ => ht.digits c hc, fun h => absurd rfl h, hs⟩, ht.even⟩

theorem utf8ByteSize_of_parse {text : String} {share : PartyShare} (h : parse text = .ok share) :
    text.utf8ByteSize = share.t.utf8ByteSize + 1 + share.s.utf8ByteSize := by
  obtain ⟨rfl, -⟩ := parse_eq_ok_iff.mp h
  rw [PartyShare.text, String.utf8ByteSize_append, String.utf8ByteSize_append]
  rfl

theorem parse_text {t s : List UInt8} (hlen : t.length = s.length) (hne : t ≠ []) :
    parse (ofBytes t s).text = .ok (ofBytes t s) := by
  have hne' : s ≠ [] := fun h => hne (List.length_eq_zero_iff.mp (by rw [hlen, h, List.length_nil]))
  refine parse_eq_ok_iff.mpr ⟨rfl, isHalf_encode hne, ?_, fun c hc _ => ?_⟩
  · rw [ofBytes, Hex.length_encode, Hex.length_encode, hlen]
  · exact (isHalf_encode hne').digits c hc

/-- A share of `n` bytes in each half, written out, reads as itself. -/
theorem readsAs_text {n : Nat} {t s : List UInt8} (ht : t.length = n) (hs : s.length = n)
    (hn : n ≠ 0) : ReadsAs n (ofBytes t s).text t s := by
  have hne : t ≠ [] := fun h => hn (by rw [← ht, h, List.length_nil])
  refine ⟨ofBytes t s, parse_text (ht.trans hs.symm) hne, ?_, ?_, Hex.decode_encode t,
    Hex.decode_encode s⟩
  · rw [ofBytes, Hex.length_encode, ht]
  · rw [ofBytes, Hex.length_encode, hs]

/-! ### Bytes -/

theorem half_eq_ok_iff {digits : String} {bytes : List UInt8} :
    half digits = .ok bytes ↔ Hex.decode digits = .ok bytes := by
  rw [half]
  cases Hex.decode digits <;> simp

theorem bytes_eq_ok_iff {share : PartyShare} {bytes : List UInt8} : share.bytes = .ok bytes ↔
    ∃ t s, Hex.decode share.t = .ok t ∧ Hex.decode share.s = .ok s ∧ t ++ s = bytes := by
  rw [PartyShare.bytes]
  simp only [← half_eq_ok_iff]
  cases half share.t <;> cases half share.s <;> simp

theorem exists_bytes_of_isHalf {share : PartyShare} (ht : IsHalf share.t) (hs : IsHalf share.s) :
    ∃ bytes, share.bytes = .ok bytes := by
  obtain ⟨t, ht⟩ := ht.exists_decode
  obtain ⟨s, hs⟩ := hs.exists_decode
  exact ⟨t ++ s, bytes_eq_ok_iff.mpr ⟨t, s, ht, hs, rfl⟩⟩

/-- The digits of a share whose bytes can be read make these many bytes. -/
theorem byteLength_of_bytes {share : PartyShare} {bytes : List UInt8}
    (h : share.bytes = .ok bytes) : share.byteLength = bytes.length := by
  obtain ⟨t, s, ht, hs, rfl⟩ := bytes_eq_ok_iff.mp h
  have hsize := (Hex.size_of_decode ht).2
  have hsize' := (Hex.size_of_decode hs).2
  rw [byteLength, List.length_append]
  omega

/-! ### One reading only -/

/-- A text is read with halves of one length only. -/
theorem ReadsAs.length_text {n : Nat} {text : String} {t s : List UInt8} (h : ReadsAs n text t s) :
    text.length = 4 * n + 1 := by
  obtain ⟨share, hparse, ht, hs, -, -⟩ := h
  obtain ⟨rfl, -⟩ := parse_eq_ok_iff.mp hparse
  rw [PartyShare.length_text, ht, hs]
  omega

/-- A text is read with one pair of halves only. -/
theorem ReadsAs.unique {n m : Nat} {text : String} {t s t' s' : List UInt8}
    (h : ReadsAs n text t s) (h' : ReadsAs m text t' s') : t = t' ∧ s = s' := by
  obtain ⟨share, hparse, -, -, ht, hs⟩ := h
  obtain ⟨share', hparse', -, -, ht', hs'⟩ := h'
  rw [hparse, Except.ok.injEq] at hparse'
  subst hparse'
  rw [ht, Except.ok.injEq] at ht'
  rw [hs, Except.ok.injEq] at hs'
  exact ⟨ht', hs'⟩

end TriShare.PartyShare
