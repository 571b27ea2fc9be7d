import TriShare.Proofs.Text.Hex
import TriShare.Proofs.Text.Latin1
/-!
The two codecs write a byte as one character or as two digits. Both read back what they write, and
each reads exactly the texts of a domain of its own (`Inverts`): the texts of characters up to
U+00FF, which are written again as they were, and those of hexadecimal digits in an even number,
which are written again in lower case.
-/

namespace TriShare.Text

/-- Every byte string is read from the text that it is written as. Texts of the domain, and no
others, are read, and the bytes of a text are written in its normal form. -/
structure Inverts {ε : Type} (read : String → Except ε (List UInt8)) (write : List UInt8 → String)
    (domain : String → Prop) (normal : String → String) : Prop where
  read_write : ∀ bytes, read (write bytes) = .ok bytes
  domain_iff : ∀ text, (∃ bytes, read text = .ok bytes) ↔ domain text
  write_of_read : ∀ text bytes, read text = .ok bytes → write bytes = normal text

/-- Of the single-byte texts each character is a byte. -/
def SingleByte (text : String) : Prop := ∀ c ∈ text.toList, c.toNat ≤ 0xFF

/-- The hexadecimal texts are digits of either case, two for each byte. -/
def Hexadecimal (text : String) : Prop :=
  text.length % 2 = 0 ∧
    ∀ c ∈ text.toList, ('0' ≤ c ∧ c ≤ '9') ∨ ('a' ≤ c ∧ c ≤ 'f') ∨ ('A' ≤ c ∧ c ≤ 'F')

theorem latin1_inverts : Inverts Latin1.encode Latin1.decode SingleByte id where
  read_write := Latin1.encode_decode
  domain_iff _ := Latin1.exists_encode
  write_of_read _ _ := Latin1.encode_eq_ok_iff.mp

theorem hex_inverts : Inverts Hex.decode Hex.encode Hexadecimal String.toLower where
  read_write := Hex.decode_encode
  domain_iff text := by
    rw [Hex.exists_decode_iff, Hexadecimal]
    simp only [Hex.isDigit_iff]
  write_of_read _ _ := Hex.encode_of_decode

/-- In both codecs reading and writing are inverse to each other on exactly the codec's domain. A
single-byte text has as many bytes as characters, and of every other text the first character above
U+00FF is reported, with the number of characters before it. -/
theorem codecs_invert :
    Inverts Latin1.encode Latin1.decode SingleByte id ∧
    (∀ text bytes, Latin1.encode text = .ok bytes → bytes.length = text.length) ∧
    (∀ text found, Latin1.encode text = .error found ↔
      ∃ before c after, text.toList = before ++ c :: after ∧ (∀ d ∈ before, d.toNat ≤ 0xFF) ∧
        0xFF < c.toNat ∧ found = ⟨c, before.length⟩) ∧
    Inverts Hex.decode Hex.encode Hexadecimal String.toLower := by
  refine ⟨latin1_inverts, ?_, ?_, hex_inverts⟩
  · intro text bytes h
    exact Latin1.length_encode h
  · intro text found
    exact Latin1.encode_eq_error_iff

/-- The place is counted in characters: eleven stand before the euro sign, of twelve bytes. -/
example : Latin1.encode "Zürich, 12 €uro" = .error ⟨'€', 11⟩ := by decide +kernel

end TriShare.Text
