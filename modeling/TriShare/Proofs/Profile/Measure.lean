import TriShare.Proofs.Party.Share
import TriShare.Proofs.Text.Latin1
import TriShare.Profile.Profiler
/-!
How many bytes a party's text takes once it is padded. What a profiler finds without decoding the
text is known from the number of its characters (`byteCount_of_encodedLength`).
-/

namespace TriShare

/-- How many bytes a text in a column stands for: in the clear one for each character, and in a
share one for every two digits, with a space besides. -/
def byteCount (c : ColumnClass) (text : String) : Nat :=
  if c = .passthrough then text.length else (text.length - 1) / 2

variable {c : ColumnClass} {text : String} {n : Nat} {share : PartyShare}

namespace PartyShare

theorem parse_of_parseIn (h : parseIn c text = .ok share) : parse text = .ok share := by
  rw [parseIn] at h
  cases hparse : parse text with
  | error fault => simp [hparse] at h
  | ok share' =>
    simp only [hparse] at h
    split at h
    · cases h
    · rw [Except.ok.inj h]

/-- All characters of a share but one are counted, two for a byte. -/
theorem byteLength_of_parse (h : parse text = .ok share) :
    share.byteLength = (text.length - 1) / 2 := by
  obtain ⟨rfl, ht, -, hs⟩ := parse_eq_ok_iff.mp h
  rw [byteLength, ht.utf8ByteSize_eq, utf8ByteSize_of_spaced hs, length_text, Nat.add_sub_cancel]

end PartyShare

/-- A length is that of the single-byte text or of the share that is read. -/
theorem encodedLength_eq_ok_iff : encodedLength c text = .ok n ↔
    (c = .passthrough ∧ ∃ plain, Latin1.encode text = .ok plain ∧ plain.length = n) ∨
    (c ≠ .passthrough ∧ ∃ share, PartyShare.parseIn c text = .ok share ∧ share.byteLength = n) := by
  cases c with
  | passthrough => cases hencode : Latin1.encode text <;> simp [encodedLength, hencode]
  | numeric =>
    cases hparse : PartyShare.parseIn .numeric text <;> simp [encodedLength, hparse, Except.map]
  | shared =>
    cases hparse : PartyShare.parseIn .shared text <;> simp [encodedLength, hparse, Except.map]

theorem byteCount_of_encodedLength (h : encodedLength c text = .ok n) : byteCount c text = n := by
  rw [byteCount]
  rcases encodedLength_eq_ok_iff.mp h with ⟨hc, plain, hplain, rfl⟩ | ⟨hc, share, hparse, rfl⟩
  · rw [if_pos hc, Latin1.length_encode hplain]
  · rw [if_neg hc, PartyShare.byteLength_of_parse (PartyShare.parse_of_parseIn hparse)]

/-- No text takes more bytes once it is padded. -/
theorem encodedLength_le (h : encodedLength c text = .ok n) : n ≤ text.utf8ByteSize := by
  rcases encodedLength_eq_ok_iff.mp h with ⟨rfl, plain, hplain, rfl⟩ | ⟨-, share, hparse, rfl⟩
  · rw [Latin1.length_encode hplain, ← String.length_toList]
    exact Text.length_toList_le text
  · have hsize := PartyShare.utf8ByteSize_of_parse (PartyShare.parse_of_parseIn hparse)
    rw [PartyShare.byteLength]
    omega

end TriShare
