import TriShare.Proofs.Sharing.Replicated
import TriShare.Proofs.Sharing.Source
import TriShare.Proofs.Text.Latin1
import TriShare.Table.Share
/-!
Sharing of a single value. Whether it succeeds and how many bytes it draws depends on the value
alone, and when it succeeds, the parties' texts open to the value.
-/

namespace TriShare

namespace Content

/-- Why a value cannot be shared. -/
def fault? (precision : Nat) : Content → Option FieldError
  | .numeric text =>
    match FixedPoint.encode precision text with
    | .error e => some e
    | .ok _ => none
  | .passthrough _ => none
  | .bytes text =>
    match Latin1.encode text with
    | .error found => some (.unencodable found)
    | .ok _ => none

/-- How many bytes are drawn for a value. -/
def cost : Content → Nat
  | .numeric _ => 16
  | .passthrough _ => 0
  | .bytes text => 2 * text.length

/-- What the parties can read from their texts of a value. A number is opened modulo `2 ^ 64` from
words of sixteen digits, a text from as many bytes as it has characters, and at least one; the text
of a passthrough column is there as it is. -/
def OpensTo (precision : Nat) : Content → Triple String → Prop
  | .numeric text, texts => ∃ num, FixedPoint.encode precision text = .ok num ∧
    ∃ t s : Triple (List UInt8),
      Replicated.Opens (· + ·) num (t.map Bytes.toWord) (s.map Bytes.toWord) ∧
      Replicated.ReadAs 8 texts t s
  | .passthrough text, texts => texts = Triple.all text
  | .bytes text, texts => ∃ plain, Latin1.encode text = .ok plain ∧
    ∃ t s : Triple (List UInt8), Replicated.Opens Bytes.xor (Bytewise.shown plain) t s ∧
      Replicated.ReadAs (max text.length 1) texts t s

theorem share_of_fault {precision : Nat} {content : Content} {e : FieldError}
    (h : content.fault? precision = some e) (source : Source) :
    content.share precision source = (.error e, source) := by
  cases content with
  | numeric text =>
    cases hencode : FixedPoint.encode precision text <;> simp_all [fault?, share]
  | passthrough text => simp [fault?] at h
  | bytes text =>
    cases hencode : Latin1.encode text <;> simp_all [fault?, share]

theorem opensTo_bytes {precision : Nat} {text : String} {plain : List UInt8}
    (h : Latin1.encode text = .ok plain) (source : Source) :
    (bytes text).OpensTo precision
      ((Bytewise.shares (Bytewise.draw plain source).1).map PartyShare.text) := by
  have hcomponents := Bytewise.components_draw plain source
  have hlength : (Bytewise.shown plain).length = max text.length 1 := by
    rw [Bytewise.length_shown, Latin1.length_encode h]
  refine ⟨plain, h, _, _, hcomponents.opens, ?_⟩
  rw [← hlength]
  exact hcomponents.readAs (Bytewise.shown_ne_nil plain)

theorem draw_bytes {text : String} {plain : List UInt8} (h : Latin1.encode text = .ok plain)
    (source : Source) : (Bytewise.draw plain source).2 = source.skip (bytes text).cost := by
  rw [cost, ← Latin1.length_encode h, Bytewise.draw]
  split
  · next hempty => rw [List.isEmpty_iff.mp hempty, List.length_nil, Nat.mul_zero, Source.skip_zero]
  · simp only [Source.take, Source.skip_skip, Nat.two_mul]

theorem share_numeric {precision : Nat} {text : String}
    (h : (numeric text).fault? precision = none) : ∃ num,
      FixedPoint.encode precision text = .ok num ∧ ∀ source,
        (numeric text).share precision source =
          (.ok ((Additive.shares (Additive.draw num source).1).map PartyShare.text),
            source.skip (numeric text).cost) := by
  cases hencode : FixedPoint.encode precision text with
  | error e => simp [fault?, hencode] at h
  | ok num =>
    refine ⟨num, rfl, fun source => ?_⟩
    simp only [share, hencode]
    rfl

theorem share_bytes {precision : Nat} {text : String}
    (h : (bytes text).fault? precision = none) : ∃ plain,
      Latin1.encode text = .ok plain ∧ ∀ source,
        (bytes text).share precision source =
          (.ok ((Bytewise.shares (Bytewise.draw plain source).1).map PartyShare.text),
            source.skip (bytes text).cost) := by
  cases hencode : Latin1.encode text with
  | error found => simp [fault?, hencode] at h
  | ok plain =>
    refine ⟨plain, rfl, fun source => ?_⟩
    simp only [share, hencode, ← draw_bytes hencode source]

/-- A value that nothing is wrong with is shared from every source. -/
theorem share_of_sound {precision : Nat} {content : Content}
    (h : content.fault? precision = none) (source : Source) : ∃ texts,
      content.share precision source = (.ok texts, source.skip content.cost) ∧
        content.OpensTo precision texts := by
  cases content with
  | numeric text =>
    obtain ⟨num, hencode, hshare⟩ := share_numeric h
    refine ⟨_, hshare source, num, hencode, _, _, ?_, Additive.readAs_shares _⟩
    rw [Triple.map_toWord_ofWord, Triple.map_toWord_ofWord]
    exact Additive.opens_split num _ _
  | passthrough text => exact ⟨_, rfl, rfl⟩
  | bytes text =>
    obtain ⟨plain, hencode, hshare⟩ := share_bytes h
    exact ⟨_, hshare source, opensTo_bytes hencode source⟩

end Content

end TriShare
