import Mathlib.Data.List.OfFn
import Mathlib.Tactic.Ring
import TriShare.Bytes
/-!
Words and their bytes determine each other, and so do texts and theirs. Exclusive or is a masking:
`xor_xor_cancel` takes a mask off again.
-/

namespace TriShare.Bytes

/-! ### Words -/

theorem length_littleEndian : ∀ n v : Nat, (littleEndian n v).length = n
  | 0, _ => rfl
  | n + 1, v => by rw [littleEndian, List.length_cons, length_littleEndian n]

theorem value_littleEndian : ∀ {n v : Nat}, v < 256 ^ n → value (littleEndian n v) = v
  | 0, v, h => by
    rw [pow_zero, Nat.lt_one_iff] at h
    rw [h]
    rfl
  | n + 1, v, h => by
    have hrest : v / 256 < 256 ^ n := Nat.div_lt_of_lt_mul (by rwa [pow_succ'] at h)
    have hbyte : (UInt8.ofNat (v % 256)).toNat = v % 256 := by
      rw [UInt8.toNat_ofNat']
      omega
    rw [littleEndian, value, value_littleEndian hrest, hbyte]
    omega

theorem value_lt : ∀ bs : List UInt8, value bs < 256 ^ bs.length
  | [] => by decide
  | b :: bs => by
    have hb := b.toNat_lt
    have ih := value_lt bs
    rw [value, List.length_cons, pow_succ]
    omega

theorem littleEndian_inj {n v w : Nat} (hv : v < 256 ^ n) (hw : w < 256 ^ n) :
    littleEndian n v = littleEndian n w ↔ v = w := by
  refine ⟨fun h => ?_, fun h => by rw [h]⟩
  rw [← value_littleEndian hv, h, value_littleEndian hw]

theorem littleEndian_value : ∀ bs : List UInt8, littleEndian bs.length (value bs) = bs
  | [] => rfl
  | b :: bs => by
    have hb := b.toNat_lt
    have hmod : (b.toNat + 256 * value bs) % 256 = b.toNat := by omega
    have hdiv : (b.toNat + 256 * value bs) / 256 = value bs := by omega
    rw [List.length_cons, value, littleEndian, hmod, hdiv, littleEndian_value bs, UInt8.ofNat_toNat]

theorem toNat_lt (w : UInt64) : w.toNat < 256 ^ 8 := w.toNat_lt

theorem length_ofWord (w : UInt64) : (ofWord w).length = 8 := by
  rw [ofWord, List.length_reverse, length_littleEndian]

theorem toWord_ofWord (w : UInt64) : toWord (ofWord w) = w := by
  rw [toWord, ofWord, List.reverse_reverse, value_littleEndian (toNat_lt w), UInt64.ofNat_toNat]

/-- A word that is read from bytes, the least significant first, has them in reverse. -/
theorem ofWord_ofNat_value {bs : List UInt8} (h : bs.length = 8) :
    ofWord (UInt64.ofNat (value bs)) = bs.reverse := by
  have hlt : value bs < 2 ^ 64 := (value_lt bs).trans_eq (by rw [h]; rfl)
  rw [ofWord, UInt64.toNat_ofNat', Nat.mod_eq_of_lt hlt, ← h, littleEndian_value]

theorem ofWord_injective : Function.Injective ofWord :=
  Function.LeftInverse.injective toWord_ofWord

/-! ### Texts -/

theorem ofText_injective : Function.Injective ofText := fun _ _ h =>
  String.toByteArray_inj.mp (ByteArray.ext (Array.toList_inj.mp h))

/-! ### Exclusive or -/

theorem length_xor (a b : List UInt8) : (xor a b).length = min a.length b.length :=
  List.length_zipWith

theorem xor_comm (a b : List UInt8) : xor a b = xor b a :=
  List.zipWith_comm_of_comm fun x y => UInt8.xor_comm x y

theorem xor_assoc : ∀ a b c : List UInt8, xor (xor a b) c = xor a (xor b c)
  | [], _, _ => rfl
  | _ :: _, [], _ => rfl
  | _ :: _, _ :: _, [] => rfl
  | x :: a, y :: b, z :: c => by
    have ih := xor_assoc a b c
    simp only [xor, List.zipWith_cons_cons] at ih ⊢
    rw [ih, UInt8.xor_assoc]

instance : Std.Associative xor := ⟨xor_assoc⟩

instance : Std.Commutative xor := ⟨xor_comm⟩

/-- A mask that is as long as the string is taken off by putting it on again. -/
theorem xor_xor_cancel : ∀ {a b : List UInt8}, a.length = b.length → xor (xor a b) b = a
  | [], [], _ => rfl
  | x :: a, y :: b, h => by
    have ih := xor_xor_cancel (Nat.succ.inj h)
    simp only [xor, List.zipWith_cons_cons] at ih ⊢
    rw [ih, UInt8.xor_assoc, UInt8.xor_self, UInt8.xor_zero]

end TriShare.Bytes
