import TriShare.Proofs.Padding.Block
import TriShare.Proofs.Padding.Encoding
/-!
Padding of a single value. It fails with the fault of the text, or because the bytes of the text do
not fit, and then says how many these are. Once a value fits, more blocks only add zeros, as long as
there are not more of them than can be allocated (`paddingLaw_iff`).
-/

namespace TriShare

variable {c : ColumnClass} {text : String} {blocks wider n width : Nat} {bytes : List UInt8}
  {row : List Block}

/-! ### Bytes -/

namespace PartyShare

theorem half_ne_tooWide (digits : String) : half digits ≠ .error (.tooWide n width) := by
  rw [half]
  cases Hex.decode digits <;> simp

theorem bytes_ne_tooWide (share : PartyShare) : share.bytes ≠ .error (.tooWide n width) := by
  have ht := @half_ne_tooWide n width share.t
  have hs := @half_ne_tooWide n width share.s
  rw [PartyShare.bytes]
  cases hleft : half share.t <;> cases hright : half share.s <;> simp_all

theorem parseIn_ne_tooWide (c : ColumnClass) (text : String) :
    parseIn c text ≠ .error (.tooWide n width) := by
  rw [parseIn]
  cases parse text with
  | error fault => simp
  | ok share => simp only; split <;> simp

end PartyShare

theorem length_of_encodedBytes (h : encodedBytes c text = .ok bytes) :
    byteCount c text = bytes.length :=
  byteCount_of_encodedLength (encodedLength_of_encodedBytes h)

/-- A text has no width of its own that it could exceed. -/
theorem encodedBytes_ne_tooWide : encodedBytes c text ≠ .error (.tooWide n width) := by
  by_cases hc : c = .passthrough
  · rw [hc, encodedBytes_passthrough]
    cases Latin1.encode text <;> simp [Except.mapError]
  · have hparse := @PartyShare.parseIn_ne_tooWide n width c text
    rw [encodedBytes_of_ne hc]
    cases hread : PartyShare.parseIn c text with
    | error e => simpa [hread, Except.bind] using hparse
    | ok share => exact PartyShare.bytes_ne_tooWide share

/-! ### Blocks -/

theorem padValue_eq_ok_iff_padded : padValue c text blocks = .ok row ↔
    ∃ bytes, encodedBytes c text = .ok bytes ∧ Block.padded bytes blocks = .ok (some row) := by
  rw [padValue]
  cases encodedBytes c text with
  | error e => simp
  | ok bytes => rcases hpadded : Block.padded bytes blocks with _ | _ | _ <;> simp [hpadded]

theorem padValue_eq_ok_iff : padValue c text blocks = .ok row ↔
    ∃ bytes, encodedBytes c text = .ok bytes ∧
      blocks * 16 < 2 ^ 63 ∧ bytes.length ≤ blocks * 16 ∧ Block.fill blocks bytes = row := by
  simp only [padValue_eq_ok_iff_padded, Block.padded_eq_some_iff]

theorem padValue_eq_tooWide_iff : padValue c text blocks = .error (.error (.tooWide n width)) ↔
    ∃ bytes, encodedBytes c text = .ok bytes ∧ Block.padded bytes blocks = .ok none ∧
      bytes.length = n ∧ blocks = width := by
  have hne := @encodedBytes_ne_tooWide c text n width
  rw [padValue]
  cases hbytes : encodedBytes c text with
  | error e => simpa [hbytes] using hne
  | ok bytes => rcases hpadded : Block.padded bytes blocks with _ | _ | _ <;> simp [hpadded]

theorem padValue_eq_panic_iff {cause : Panic} : padValue c text blocks = .error (.panic cause) ↔
    ∃ bytes, encodedBytes c text = .ok bytes ∧ Block.padded bytes blocks = .error cause := by
  rw [padValue]
  cases encodedBytes c text with
  | error e => simp
  | ok bytes => rcases hpadded : Block.padded bytes blocks with _ | _ | _ <;> simp [hpadded]

/-- Within what can be allocated, a value that is padded to some blocks is padded to more of them,
with zeros behind. -/
theorem padValue_of_le (h : padValue c text blocks = .ok row) (hle : blocks ≤ wider)
    (hrange : wider * 16 < 2 ^ 63) :
    padValue c text wider = .ok (row ++ List.replicate (wider - blocks) Block.zero) := by
  obtain ⟨bytes, hbytes, hpadded⟩ := padValue_eq_ok_iff_padded.mp h
  exact padValue_eq_ok_iff_padded.mpr ⟨bytes, hbytes, Block.padded_of_le hpadded hle hrange⟩

/-- What has too many bytes for its blocks says how many. -/
theorem padValue_eq_tooWide_iff_byteCount :
    padValue c text blocks = .error (.error (.tooWide n width)) ↔
      width = blocks ∧ n = byteCount c text ∧ (2 ^ 64 ≤ blocks * 16 ∨ blocks * 16 < n) ∧
        ∃ bytes, encodedBytes c text = .ok bytes ∧ bytes.length = n := by
  simp only [padValue_eq_tooWide_iff, Block.padded_eq_none_iff]
  constructor
  · rintro ⟨bytes, hbytes, hnone, rfl, rfl⟩
    exact ⟨rfl, (length_of_encodedBytes hbytes).symm, hnone, bytes, hbytes, rfl⟩
  · rintro ⟨rfl, -, hnone, bytes, hbytes, rfl⟩
    exact ⟨bytes, hbytes, hnone, rfl, rfl⟩

/-! ### Exact padding -/

/-- What padding should be. A byte string is cut into as many blocks as are asked for, which hold it
and zeros after its end, unless their bytes cannot be counted in 64 bits or are fewer than its own.
The value of a column that is padded to some blocks is padded to more of them with zero blocks
behind them; and if it is too wide, the error says how many bytes it has. -/
structure PaddingLaw (bytes : List UInt8) (c : ColumnClass) (text : String) (blocks wider : Nat) :
    Prop where
  none_iff : Block.padded bytes blocks = .ok none ↔
    2 ^ 64 ≤ blocks * 16 ∨ blocks * 16 < bytes.length
  fits : blocks * 16 < 2 ^ 64 → bytes.length ≤ blocks * 16 → ∃ row : List Block,
    Block.padded bytes blocks = .ok (some row) ∧ row.length = blocks ∧
      row.flatMap Block.bytes = bytes ++ List.replicate (blocks * 16 - bytes.length) 0
  widens : ∀ row, padValue c text blocks = .ok row → blocks ≤ wider → wider * 16 < 2 ^ 64 →
    padValue c text wider = .ok (row ++ List.replicate (wider - blocks) Block.zero)
  tooWide : ∀ n width, padValue c text blocks = .error (.error (.tooWide n width)) →
    n = byteCount c text ∧ ∃ encoded, encodedBytes c text = .ok encoded ∧ encoded.length = n

/-- Where the blocks can be allocated, the law holds. -/
theorem paddingLaw_of_not_overflows
    (hblocks : ¬(Block.Overflows blocks ∧ bytes.length ≤ blocks * 16))
    (hwider : ∀ row, padValue c text blocks = .ok row → blocks ≤ wider → ¬Block.Overflows wider) :
    PaddingLaw bytes c text blocks wider where
  none_iff := Block.padded_eq_none_iff
  fits hrange hfits := by
    rw [Block.Overflows] at hblocks
    have hholds := Block.holds_fill hfits
    exact ⟨_, Block.padded_eq_some_iff.mpr ⟨by omega, hfits, rfl⟩, hholds.length_eq,
      hholds.bytes_eq⟩
  widens row hrow hle hrange := by
    have hsmall := hwider row hrow hle
    rw [Block.Overflows] at hsmall
    exact padValue_of_le hrow hle (by omega)
  tooWide n width h := by
    obtain ⟨-, hn, -, hencoded⟩ := padValue_eq_tooWide_iff_byteCount.mp h
    exact ⟨hn, hencoded⟩

/-- Blocks that cannot be allocated are not given, although the law asks for them. -/
theorem PaddingLaw.not_overflows (h : PaddingLaw bytes c text blocks wider) :
    ¬(Block.Overflows blocks ∧ bytes.length ≤ blocks * 16) := by
  rintro ⟨hover, hfits⟩
  obtain ⟨row, hrow, -⟩ := h.fits hover.2 hfits
  have hpanic : Block.padded bytes blocks = .error .capacityOverflow :=
    Block.padded_eq_error_iff.mpr ⟨hover, hfits⟩
  cases hpanic.symm.trans hrow

theorem PaddingLaw.wider_not_overflows (h : PaddingLaw bytes c text blocks wider)
    (hrow : padValue c text blocks = .ok row) (hle : blocks ≤ wider) : ¬Block.Overflows wider := by
  intro hover
  obtain ⟨-, -, hrange, -⟩ := padValue_eq_ok_iff.mp (h.widens row hrow hle hover.2)
  exact absurd hover.1 (Nat.not_le.mpr hrange)

/-- Padding is exact unless the blocks that are asked for have bytes that can be counted in 64 bits
but not be allocated. In that case, and in no other, the program ends on the spot; otherwise there
are the blocks that hold the byte string, or none if it is too long for them. -/
theorem paddingLaw_iff (bytes : List UInt8) (c : ColumnClass) (text : String)
    (blocks wider : Nat) :
    (PaddingLaw bytes c text blocks wider ↔
      ¬(Block.Overflows blocks ∧ bytes.length ≤ blocks * 16) ∧
      ∀ row, padValue c text blocks = .ok row → blocks ≤ wider → ¬Block.Overflows wider) ∧
    (Block.padded bytes blocks = .ok none ↔ 2 ^ 64 ≤ blocks * 16 ∨ blocks * 16 < bytes.length) ∧
    (∀ row, Block.padded bytes blocks = .ok (some row) ↔
      (blocks * 16 < 2 ^ 63 ∧ bytes.length ≤ blocks * 16) ∧ row.length = blocks ∧
        row.flatMap Block.bytes = bytes ++ List.replicate (blocks * 16 - bytes.length) 0) ∧
    (Block.padded bytes blocks = .error .capacityOverflow ↔
      Block.Overflows blocks ∧ bytes.length ≤ blocks * 16) ∧
    (∀ row, padValue c text blocks = .ok row → blocks ≤ wider → wider * 16 < 2 ^ 63 →
      padValue c text wider = .ok (row ++ List.replicate (wider - blocks) Block.zero)) ∧
    (padValue c text blocks = .error (.panic .capacityOverflow) ↔ ∃ encoded,
      encodedBytes c text = .ok encoded ∧ Block.Overflows blocks ∧ encoded.length ≤ blocks * 16) ∧
    ∀ n width, padValue c text blocks = .error (.error (.tooWide n width)) ↔
      width = blocks ∧ n = byteCount c text ∧ (2 ^ 64 ≤ blocks * 16 ∨ blocks * 16 < n) ∧
        ∃ encoded, encodedBytes c text = .ok encoded ∧ encoded.length = n := by
  refine ⟨⟨fun h => ⟨h.not_overflows, fun _ => h.wider_not_overflows⟩,
    fun h => paddingLaw_of_not_overflows h.1 h.2⟩, Block.padded_eq_none_iff, fun row => ?_,
    Block.padded_eq_error_iff, fun row => padValue_of_le, ?_,
    fun n width => padValue_eq_tooWide_iff_byteCount⟩
  · rw [Block.padded_eq_some_iff_holds]
    exact and_congr_right fun _ => ⟨fun h => ⟨h.length_eq, h.bytes_eq⟩, fun h => ⟨h.1, h.2⟩⟩
  · simp only [padValue_eq_panic_iff, Block.padded_eq_error_iff]

/-- The empty byte string fits into any blocks, but so many of them cannot be allocated. -/
theorem overflow_not_paddingLaw : ¬PaddingLaw [] .shared "00 00" (2 ^ 59) (2 ^ 59) := by
  intro h
  have hpanic : Block.padded [] (2 ^ 59) = .error .capacityOverflow :=
    Block.padded_eq_error_iff.mpr ⟨by decide, by decide⟩
  obtain ⟨row, hrow, -⟩ := h.fits (by decide) (by decide)
  cases hpanic.symm.trans hrow

end TriShare
