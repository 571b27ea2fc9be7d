import TriShare.Proofs.Party.Share
/-!
The format of shares: two halves of digits, as long as each other, with one space between them. All
texts of the format are read as what they are, and their bytes can be had. The reader lets one kind
of text in that is not of the format, namely with spaces in place of digits in the second half, and
of the shares that it makes of these there are no bytes (`formatLaw_iff`).
-/

namespace TriShare.PartyShare

/-- Both halves are digits, and as many. -/
structure WellFormed (share : PartyShare) : Prop where
  t : IsHalf share.t
  s : IsHalf share.s
  length_eq : share.s.length = share.t.length

/-- The second half has the length of the first one, but spaces among its digits. -/
structure Spaced (share : PartyShare) : Prop where
  t : IsHalf share.t
  length_eq : share.s.length = share.t.length
  digits : ∀ c ∈ share.s.toList, c ≠ ' ' → Hex.isDigit c = true
  space : ' ' ∈ share.s.toList

/-- A text is read if and only if it is of the format, and what is read of it can be used. -/
structure FormatLaw (text : String) : Prop where
  accepts : (∃ share, parse text = .ok share) ↔
    ∃ share : PartyShare, share.WellFormed ∧ share.text = text
  reads : ∀ share : PartyShare, share.WellFormed → share.text = text → parse text = .ok share
  /-- The share is the text again. There are as many bytes as are counted, those of the first half
  and then those of the second one. -/
  usable : ∀ share, parse text = .ok share → share.text = text ∧ ∃ t s,
    Hex.decode share.t = .ok t ∧ Hex.decode share.s = .ok s ∧ share.bytes = .ok (t ++ s) ∧
      share.byteLength = (t ++ s).length

variable {share : PartyShare} {text : String}

theorem parse_eq_ok_iff_spaced : parse text = .ok share ↔
    share.text = text ∧ (share.WellFormed ∨ share.Spaced) := by
  rw [parse_eq_ok_iff]
  refine and_congr_right fun _ => ?_
  constructor
  · rintro ⟨ht, hlength, hs⟩
    by_cases hspace : ' ' ∈ share.s.toList
    · exact .inr ⟨ht, hlength, hs, hspace⟩
    · exact .inl ⟨ht, ht.of_length hlength hs hspace, hlength⟩
  · rintro (h | h)
    · exact ⟨h.t, h.length_eq, fun c hc _ => h.s.digits c hc⟩
    · exact ⟨h.t, h.length_eq, h.digits⟩

theorem WellFormed.usable (h : share.WellFormed) : ∃ t s,
    Hex.decode share.t = .ok t ∧ Hex.decode share.s = .ok s ∧ share.bytes = .ok (t ++ s) ∧
      share.byteLength = (t ++ s).length := by
  obtain ⟨t, ht⟩ := h.t.exists_decode
  obtain ⟨s, hs⟩ := h.s.exists_decode
  have hbytes : share.bytes = .ok (t ++ s) := bytes_eq_ok_iff.mpr ⟨t, s, ht, hs, rfl⟩
  exact ⟨t, s, ht, hs, hbytes, byteLength_of_bytes hbytes⟩

/-- The first space of the second half is taken for a digit that is none. -/
theorem Spaced.bytes_eq (h : share.Spaced) : ∃ before after,
    share.s.toList = before ++ ' ' :: after ∧ ' ' ∉ before ∧
      share.bytes =
        .error (.invalidShare (.undecodable share.s (.badDigit 0x20 before.length))) := by
  obtain ⟨before, after, hs, hbefore⟩ := List.eq_append_cons_of_mem h.space
  refine ⟨before, after, hs, hbefore, ?_⟩
  obtain ⟨t, ht⟩ := h.t.exists_decode
  have hdecode : Hex.decode share.s = .error (.badDigit 0x20 before.length) := by
    refine Hex.decode_of_bad_digit ?_ hs (fun c hc => h.digits c ?_ ?_) (by decide)
    · rw [utf8ByteSize_of_spaced h.digits, h.length_eq]
      exact h.t.even
    · rw [hs]
      exact List.mem_append_left _ hc
    · rintro rfl
      exact hbefore hc
  rw [bytes, half, half, ht, hdecode]

theorem Spaced.not_formatLaw (h : share.Spaced) : ¬FormatLaw share.text := by
  intro hlaw
  have hparse : parse share.text = .ok share := parse_eq_ok_iff_spaced.mpr ⟨rfl, .inr h⟩
  obtain ⟨-, t, s, -, -, hbytes, -⟩ := hlaw.usable share hparse
  obtain ⟨before, after, -, -, herror⟩ := h.bytes_eq
  rw [hbytes] at herror
  cases herror

/-- The reader keeps to the format for all texts but those with further spaces, which it reads as
shares without bytes. -/
theorem formatLaw_iff (text : String) :
    (FormatLaw text ↔ ¬∃ share : PartyShare, share.Spaced ∧ share.text = text) ∧
    (∀ share, parse text = .ok share ↔
      share.text = text ∧ (share.WellFormed ∨ share.Spaced)) ∧
    (∀ share : PartyShare, share.WellFormed → ∃ t s,
      Hex.decode share.t = .ok t ∧ Hex.decode share.s = .ok s ∧ share.bytes = .ok (t ++ s) ∧
        share.byteLength = (t ++ s).length) ∧
    ∀ share : PartyShare, share.Spaced → ∃ before after,
      share.s.toList = before ++ ' ' :: after ∧ ' ' ∉ before ∧
        share.bytes =
          .error (.invalidShare (.undecodable share.s (.badDigit 0x20 before.length))) := by
  refine ⟨⟨?_, fun hnone => ?_⟩, fun _ => parse_eq_ok_iff_spaced, fun _ => WellFormed.usable,
    fun _ => Spaced.bytes_eq⟩
  · rintro hlaw ⟨share, hspaced, rfl⟩
    exact hspaced.not_formatLaw hlaw
  · have hread : ∀ share, parse text = .ok share ↔ share.text = text ∧ share.WellFormed := by
      intro share
      rw [parse_eq_ok_iff_spaced]
      refine and_congr_right fun htext => or_iff_left fun hspaced => ?_
      exact hnone ⟨share, hspaced, htext⟩
    refine ⟨?_, fun share hform htext => (hread share).mpr ⟨htext, hform⟩, fun share hparse => ?_⟩
    · simp only [hread, and_comm]
    · obtain ⟨htext, hform⟩ := (hread share).mp hparse
      exact ⟨htext, hform.usable⟩

/-- A space among the digits of the second half is let in. -/
theorem spaced_not_formatLaw : ¬FormatLaw "0a0b c 0d" := by
  have ht : "0a0b".toList.all Hex.isDigit = true := by decide
  have hs : "c 0d".toList.all (fun c => c == ' ' || Hex.isDigit c) = true := by decide
  have hspaced : Spaced ⟨"0a0b", "c 0d"⟩ := by
    refine ⟨⟨by decide, by decide, List.all_eq_true.mp ht⟩, by decide, fun c hc hspace => ?_,
      by decide⟩
    simpa [hspace] using List.all_eq_true.mp hs c hc
  exact hspaced.not_formatLaw

end TriShare.PartyShare
