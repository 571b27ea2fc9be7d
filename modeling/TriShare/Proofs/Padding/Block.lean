import Mathlib.Algebra.Order.Ring.Nat
import TriShare.Padding.Block
/-!
Blocks hold a byte string from its beginning, with zeros after its end, and are determined by that.
A byte string that fits into blocks fits into more of them as long as these can be allocated, and
`count` is the least number of blocks that hold so many bytes.
-/

namespace TriShare.Block

/-- The blocks that are counted for bytes are the fewest that hold them. -/
theorem count_le_iff {bytes blocks : Nat} : count bytes ≤ blocks ↔ bytes ≤ blocks * 16 := by
  rw [count, size]
  omega

theorem count_mono : Monotone count := by
  intro a b h
  exact count_le_iff.mpr (h.trans (count_le_iff.mp le_rfl))

theorem length_fill : ∀ (blocks : Nat) (bytes : List UInt8), (fill blocks bytes).length = blocks
  | 0, _ => rfl
  | blocks + 1, bytes => by rw [fill, List.length_cons, length_fill blocks]

/-- The bytes of a block are the first ones of the string, or all of it and zeros. -/
theorem bytes_ofPrefix (bytes : List UInt8) :
    (ofPrefix bytes).bytes = bytes.take 16 ++ List.replicate (16 - bytes.length) 0 := by
  change (bytes ++ List.replicate 16 0).take 16 = _
  rw [List.take_append, List.take_replicate, Nat.min_eq_left (Nat.sub_le _ _)]

theorem flatMap_bytes_fill : ∀ {blocks : Nat} {bytes : List UInt8}, bytes.length ≤ blocks * 16 →
    (fill blocks bytes).flatMap Block.bytes =
      bytes ++ List.replicate (blocks * 16 - bytes.length) 0
  | 0, bytes, h => by
    have hnil : bytes = [] := List.length_eq_zero_iff.mp (by omega)
    rw [hnil]
    rfl
  | blocks + 1, bytes, h => by
    have hdrop : (bytes.drop 16).length ≤ blocks * 16 := by
      rw [List.length_drop]
      omega
    rw [fill, size, List.flatMap_cons, bytes_ofPrefix, flatMap_bytes_fill hdrop, List.length_drop]
    by_cases hlong : 16 ≤ bytes.length
    · have hpad : 16 - bytes.length = 0 := by omega
      have hrest : blocks * 16 - (bytes.length - 16) = (blocks + 1) * 16 - bytes.length := by omega
      rw [hpad, hrest, List.replicate_zero, List.append_nil, ← List.append_assoc,
        List.take_append_drop]
    · have hrest : 16 - bytes.length + (blocks * 16 - (bytes.length - 16)) =
          (blocks + 1) * 16 - bytes.length := by omega
      rw [List.take_of_length_le (by omega), List.drop_eq_nil_of_le (by omega), List.nil_append,
        List.append_assoc, List.replicate_append_replicate, hrest]

/-! ### Whether there are blocks -/

/-- The bytes of so many blocks can be counted in 64 bits, but are more than can be allocated. -/
def Overflows (blocks : Nat) : Prop := 2 ^ 63 ≤ blocks * 16 ∧ blocks * 16 < 2 ^ 64

instance (blocks : Nat) : Decidable (Overflows blocks) :=
  inferInstanceAs (Decidable (_ ∧ _))

theorem padded_eq_none_iff {bytes : List UInt8} {blocks : Nat} :
    padded bytes blocks = .ok none ↔ 2 ^ 64 ≤ blocks * 16 ∨ blocks * 16 < bytes.length := by
  rw [padded, size, UInt64.size, maxAllocation]
  split
  · next hlong => exact iff_of_true rfl hlong
  · next hfits => split <;> simpa using hfits

/-- A byte string is padded if it is not too long for its blocks and these can be allocated. -/
theorem padded_eq_some_iff {bytes : List UInt8} {blocks : Nat} {row : List Block} :
    padded bytes blocks = .ok (some row) ↔
      blocks * 16 < 2 ^ 63 ∧ bytes.length ≤ blocks * 16 ∧ fill blocks bytes = row := by
  rw [padded, size, UInt64.size, maxAllocation]
  split
  · simp only [Except.ok.injEq, reduceCtorEq, false_iff]
    omega
  · split
    · simp only [reduceCtorEq, false_iff]
      omega
    · rw [Except.ok.injEq, Option.some.injEq]
      exact ⟨fun h => ⟨by omega, by omega, h⟩, fun h => h.2.2⟩

/-- Where the blocks cannot be allocated, that they would be long enough ends the program. -/
theorem padded_eq_error_iff {bytes : List UInt8} {blocks : Nat} {cause : Panic} :
    padded bytes blocks = .error cause ↔ Overflows blocks ∧ bytes.length ≤ blocks * 16 := by
  rw [padded, size, UInt64.size, maxAllocation, Overflows]
  split
  · simp only [reduceCtorEq, false_iff]
    omega
  · split
    · refine iff_of_true ?_ (by omega)
      cases cause
      rfl
    · simp only [reduceCtorEq, false_iff]
      omega

/-! ### What the blocks hold -/

/-- So many blocks that hold a byte string from their beginning, with zeros after its end. -/
structure Holds (blocks : Nat) (bytes : List UInt8) (row : List Block) : Prop where
  length_eq : row.length = blocks
  bytes_eq : row.flatMap Block.bytes = bytes ++ List.replicate (blocks * 16 - bytes.length) 0

theorem bytes_injective : Function.Injective Block.bytes := by
  rintro ⟨bytes, h⟩ ⟨bytes', h'⟩ rfl
  rfl

/-- So many blocks are determined by their bytes, of which each has sixteen. -/
theorem eq_of_flatMap_bytes : ∀ {row row' : List Block}, row.length = row'.length →
    row.flatMap Block.bytes = row'.flatMap Block.bytes → row = row'
  | [], [], _, _ => rfl
  | b :: row, b' :: row', hlength, h => by
    rw [List.flatMap_cons, List.flatMap_cons] at h
    obtain ⟨hfirst, hrest⟩ := List.append_inj h (b.length_bytes.trans b'.length_bytes.symm)
    rw [bytes_injective hfirst, eq_of_flatMap_bytes (Nat.succ.inj hlength) hrest]

variable {blocks wider : Nat} {bytes : List UInt8} {row row' : List Block}

theorem Holds.unique (h : Holds blocks bytes row) (h' : Holds blocks bytes row') : row = row' :=
  eq_of_flatMap_bytes (h.length_eq.trans h'.length_eq.symm) (h.bytes_eq.trans h'.bytes_eq.symm)

theorem holds_fill (hfits : bytes.length ≤ blocks * 16) :
    Holds blocks bytes (fill blocks bytes) where
  length_eq := length_fill blocks bytes
  bytes_eq := flatMap_bytes_fill hfits

/-- More blocks hold the same if they have nothing but zeros. -/
theorem Holds.widen (h : Holds blocks bytes row) (hfits : bytes.length ≤ blocks * 16)
    (hle : blocks ≤ wider) :
    Holds wider bytes (row ++ List.replicate (wider - blocks) zero) where
  length_eq := by
    rw [List.length_append, List.length_replicate, h.length_eq, Nat.add_sub_cancel' hle]
  bytes_eq := by
    have hzeros : (List.replicate (wider - blocks) zero).flatMap Block.bytes =
        List.replicate ((wider - blocks) * 16) 0 := by
      rw [List.flatMap_replicate, zero, List.flatten_replicate_replicate]
    have hsum : blocks * 16 - bytes.length + (wider - blocks) * 16 = wider * 16 - bytes.length := by
      omega
    rw [List.flatMap_append, h.bytes_eq, hzeros, List.append_assoc,
      List.replicate_append_replicate, hsum]

/-- Padding gives the blocks that hold the byte string. -/
theorem padded_eq_some_iff_holds : padded bytes blocks = .ok (some row) ↔
    (blocks * 16 < 2 ^ 63 ∧ bytes.length ≤ blocks * 16) ∧ Holds blocks bytes row := by
  rw [padded_eq_some_iff, ← and_assoc]
  refine and_congr_right fun ⟨_, hfits⟩ => ?_
  constructor
  · rintro rfl
    exact holds_fill hfits
  · intro h
    exact (holds_fill hfits).unique h

/-- What fits into blocks fits into more of them, the further ones being zero. -/
theorem padded_of_le (h : padded bytes blocks = .ok (some row)) (hle : blocks ≤ wider)
    (hrange : wider * 16 < 2 ^ 63) :
    padded bytes wider = .ok (some (row ++ List.replicate (wider - blocks) zero)) := by
  obtain ⟨⟨-, hfits⟩, hholds⟩ := padded_eq_some_iff_holds.mp h
  have hfits' : bytes.length ≤ wider * 16 := by omega
  exact padded_eq_some_iff_holds.mpr ⟨⟨hrange, hfits'⟩, hholds.widen hfits hle⟩

end TriShare.Block
