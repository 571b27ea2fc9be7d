import TriShare.Padding.Pad
import TriShare.Proofs.Profile.Measure
import TriShare.Proofs.Record.Leaves
import TriShare.Proofs.Table.Opening
/-!
The bytes of a party's text. They are as many as the profiler counts for the text
(`encodedLength_of_encodedBytes`), and the bytes that the parties hold of a shared value open to it
(`OpensTo.exists_held`).
-/

namespace TriShare

/-! ### Texts of shares -/

namespace PartyShare

variable {n : Nat} {text : String} {t s bytes : List UInt8} {share : PartyShare} {c : ColumnClass}

theorem ReadsAs.length_eq (h : ReadsAs n text t s) : t.length = n ∧ s.length = n := by
  obtain ⟨share, -, ht, hs, hdt, hds⟩ := h
  have hlength := (Hex.size_of_decode hdt).1
  have hlength' := (Hex.size_of_decode hds).1
  omega

/-- The space between the halves is the only one in the text of a share whose bytes can be read. -/
theorem exists_bytes (h : parse text = .ok share) (hspace : text.toList.count ' ' = 1) :
    ∃ bytes, share.bytes = .ok bytes := by
  obtain ⟨rfl, ht, hlength, hs⟩ := parse_eq_ok_iff.mp h
  rw [toList_text, List.count_append, List.count_cons_self] at hspace
  have hnone : ' ' ∉ share.s.toList := List.count_eq_zero.mp (by omega)
  exact exists_bytes_of_isHalf ht (ht.of_length hlength hs hnone)

/-- In a numeric column only shares of eight bytes in each half are read. -/
theorem ReadsAs.parseIn (h : ReadsAs n text t s) (hc : c = .numeric → n = 8) :
    ∃ share, parseIn c text = .ok share ∧ share.bytes = .ok (t ++ s) := by
  obtain ⟨share, hparse, ht, -, hdt, hds⟩ := h
  refine ⟨share, ?_, bytes_eq_ok_iff.mpr ⟨t, s, hdt, hds, rfl⟩⟩
  have hsize := Hex.size_of_decode hdt
  have hdigits : ¬(c = .numeric ∧ share.t.utf8ByteSize ≠ numericShareDigits) := by
    rintro ⟨hnumeric, hne⟩
    have hn := hc hnumeric
    rw [numericShareDigits] at hne
    omega
  simp only [PartyShare.parseIn, hparse, if_neg hdigits]

end PartyShare

/-! ### Texts of columns -/

variable {c : ColumnClass} {text : String} {bytes : List UInt8}

theorem encodedBytes_passthrough (text : String) :
    encodedBytes .passthrough text = (Latin1.encode text).mapError .unencodable := by
  rw [encodedBytes]
  cases Latin1.encode text <;> rfl

theorem encodedBytes_of_ne (hc : c ≠ .passthrough) (text : String) :
    encodedBytes c text = (PartyShare.parseIn c text).bind PartyShare.bytes := by
  cases c with
  | passthrough => exact absurd rfl hc
  | numeric =>
    simp only [encodedBytes]
    cases PartyShare.parseIn .numeric text <;> rfl
  | shared =>
    simp only [encodedBytes]
    cases PartyShare.parseIn .shared text <;> rfl

/-- The bytes of a text are those of its characters, or those of the share that it is read as. -/
theorem encodedBytes_eq_ok_iff : encodedBytes c text = .ok bytes ↔
    (c = .passthrough ∧ Latin1.encode text = .ok bytes) ∨
    (c ≠ .passthrough ∧
      ∃ share, PartyShare.parseIn c text = .ok share ∧ share.bytes = .ok bytes) := by
  by_cases hc : c = .passthrough
  · rw [hc, encodedBytes_passthrough]
    cases Latin1.encode text <;> simp [Except.mapError]
  · rw [encodedBytes_of_ne hc]
    cases PartyShare.parseIn c text <;> simp [Except.bind, hc]

/-- What is padded is as long as what is profiled. -/
theorem encodedLength_of_encodedBytes (h : encodedBytes c text = .ok bytes) :
    encodedLength c text = .ok bytes.length := by
  rw [encodedLength_eq_ok_iff]
  rcases encodedBytes_eq_ok_iff.mp h with ⟨hc, hencode⟩ | ⟨hc, share, hparse, hbytes⟩
  · exact .inl ⟨hc, bytes, hencode, rfl⟩
  · exact .inr ⟨hc, share, hparse, PartyShare.byteLength_of_bytes hbytes⟩

/-- What is profiled can be padded, where the text of a share has no second space. -/
theorem exists_encodedBytes {n : Nat} (h : encodedLength c text = .ok n)
    (hspace : c ≠ .passthrough → text.toList.count ' ' = 1) :
    ∃ bytes, encodedBytes c text = .ok bytes ∧ bytes.length = n := by
  have hread : ∃ bytes, encodedBytes c text = .ok bytes := by
    rcases encodedLength_eq_ok_iff.mp h with ⟨rfl, plain, hplain, -⟩ | ⟨hc, share, hparse, -⟩
    · exact ⟨plain, encodedBytes_eq_ok_iff.mpr (.inl ⟨rfl, hplain⟩)⟩
    · obtain ⟨bytes, hbytes⟩ :=
        PartyShare.exists_bytes (PartyShare.parse_of_parseIn hparse) (hspace hc)
      exact ⟨bytes, encodedBytes_eq_ok_iff.mpr (.inr ⟨hc, share, hparse, hbytes⟩)⟩
  obtain ⟨bytes, hbytes⟩ := hread
  have hlength := encodedLength_of_encodedBytes hbytes
  rw [h, Except.ok.injEq] at hlength
  exact ⟨bytes, hbytes, hlength.symm⟩

theorem encodedBytes_of_readsAs {n : Nat} {t s : List UInt8} (h : PartyShare.ReadsAs n text t s)
    (hc : c = .numeric → n = 8) (hshared : c ≠ .passthrough) :
    encodedBytes c text = .ok (t ++ s) := by
  obtain ⟨share, hparse, hbytes⟩ := h.parseIn hc
  exact encodedBytes_eq_ok_iff.mpr (.inr ⟨hshared, share, hparse, hbytes⟩)

/-! ### Values -/

namespace Content

/-- How many bytes each party holds of a value. -/
def width : Content → Nat
  | .numeric _ => 16
  | .passthrough text => text.length
  | .bytes text => 2 * max text.length 1

/-- Whether what stands in the clear has only characters up to U+00FF. -/
def PlainSingleByte : Content → Prop
  | .passthrough text => ∀ ch ∈ text.toList, ch.toNat ≤ 0xFF
  | _ => True

instance : ∀ content : Content, Decidable content.PlainSingleByte
  | .passthrough text => List.decidableBAll _ text.toList
  | .numeric _ => .isTrue trivial
  | .bytes _ => .isTrue trivial

/-- The bytes that the parties hold of a value: of a number and of a text the combination `t` and
then the component `s`, which open to it, and of a text in the clear the bytes of its characters. -/
def HeldAs (precision : Nat) : Content → Triple (List UInt8) → Prop
  | .numeric text, held => ∃ num, FixedPoint.encode precision text = .ok num ∧
    ∃ t s : Triple (List UInt8),
      Replicated.Opens (· + ·) num (t.map Bytes.toWord) (s.map Bytes.toWord) ∧
      ∀ p, (t.get p).length = 8 ∧ (s.get p).length = 8 ∧ held.get p = t.get p ++ s.get p
  | .passthrough text, held => ∃ plain, Latin1.encode text = .ok plain ∧ held = Triple.all plain
  | .bytes text, held => ∃ plain, Latin1.encode text = .ok plain ∧
    ∃ t s : Triple (List UInt8), Replicated.Opens Bytes.xor (Bytewise.shown plain) t s ∧
      ∀ p, (t.get p).length = max text.length 1 ∧ (s.get p).length = max text.length 1 ∧
        held.get p = t.get p ++ s.get p

variable {precision : Nat} {content : Content} {x : Scalar} {texts : Triple String}

theorem HeldAs.length_eq {held : Triple (List UInt8)} (h : content.HeldAs precision held)
    (p : Party) : (held.get p).length = content.width := by
  cases content with
  | numeric text =>
    obtain ⟨num, -, t, s, -, hheld⟩ := h
    obtain ⟨ht, hs, hp⟩ := hheld p
    rw [hp, List.length_append, ht, hs, width]
  | passthrough text =>
    obtain ⟨plain, hplain, rfl⟩ := h
    rw [Triple.get_all, Latin1.length_encode hplain]
    rfl
  | bytes text =>
    obtain ⟨plain, -, t, s, -, hheld⟩ := h
    obtain ⟨ht, hs, hp⟩ := hheld p
    rw [hp, List.length_append, ht, hs, width]
    omega

/-- From the parties' texts of a value come bytes that open to it. -/
theorem OpensTo.exists_held (hcontent : c.content x = .ok content)
    (h : content.OpensTo precision texts) (hsingle : content.PlainSingleByte) :
    ∃ held : Triple (List UInt8), (∀ p, encodedBytes c (texts.get p) = .ok (held.get p)) ∧
      content.HeldAs precision held := by
  obtain rfl := ColumnClass.eq_of_content hcontent
  cases content with
  | numeric text =>
    obtain ⟨num, hencode, t, s, hopens, hread⟩ := h
    refine ⟨Triple.zipWith (· ++ ·) t s, fun p => ?_, num, hencode, t, s, hopens, fun p => ?_⟩
    · rw [Triple.get_zipWith]
      exact encodedBytes_of_readsAs (hread p) (fun _ => rfl) ColumnClass.noConfusion
    · have hlength := (hread p).length_eq
      exact ⟨hlength.1, hlength.2, Triple.get_zipWith _ t s p⟩
  | passthrough text =>
    obtain ⟨plain, hplain⟩ := Latin1.exists_encode.mpr hsingle
    have htexts : texts = Triple.all text := h
    refine ⟨Triple.all plain, fun p => ?_, plain, hplain, rfl⟩
    simp only [htexts, Triple.get_all, columnClass, encodedBytes, hplain]
  | bytes text =>
    obtain ⟨plain, hplain, t, s, hopens, hread⟩ := h
    refine ⟨Triple.zipWith (· ++ ·) t s, fun p => ?_, plain, hplain, t, s, hopens, fun p => ?_⟩
    · rw [Triple.get_zipWith]
      exact encodedBytes_of_readsAs (hread p) ColumnClass.noConfusion ColumnClass.noConfusion
    · have hlength := (hread p).length_eq
      exact ⟨hlength.1, hlength.2, Triple.get_zipWith _ t s p⟩

/-- The length of a party's text is known from the value, and is missing only where characters in
the clear have no byte. -/
theorem OpensTo.encodedLength_eq_ok_iff (hcontent : c.content x = .ok content)
    (h : content.OpensTo precision texts) (p : Party) {n : Nat} :
    encodedLength c (texts.get p) = .ok n ↔ content.PlainSingleByte ∧ content.width = n := by
  by_cases hsingle : content.PlainSingleByte
  · obtain ⟨held, hbytes, hheld⟩ := h.exists_held hcontent hsingle
    rw [encodedLength_of_encodedBytes (hbytes p), hheld.length_eq, Except.ok.injEq]
    simp [hsingle]
  · cases content with
    | numeric text => exact absurd trivial hsingle
    | bytes text => exact absurd trivial hsingle
    | passthrough text =>
      obtain rfl := ColumnClass.eq_of_content hcontent
      have htexts : texts = Triple.all text := h
      cases hencode : Latin1.encode text with
      | error e => simp [htexts, columnClass, encodedLength, hencode, hsingle]
      | ok plain => exact absurd (Latin1.exists_encode.mp ⟨plain, hencode⟩) hsingle

end Content

end TriShare
