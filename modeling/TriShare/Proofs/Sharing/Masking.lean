import TriShare.Proofs.Party.Triple
import TriShare.Proofs.Sharing.Hiding
import TriShare.Proofs.Sharing.Replicated
/-!
What one party holds of a value is the same for every value: a change of one of the two random
components makes up for the change of the value. The first party sees nothing of the second
component but in `t₁`, the third nothing of the first but in `t₃`, and the second party sees both of
them and nothing of the third.
-/

namespace TriShare

namespace Segment

variable {n : Nat}

/-- A list of bytes by their places. -/
def ofList (l : List UInt8) (h : l.length = n) : Segment n := fun i => l.get (i.cast h.symm)

theorem ofFn_ofList (l : List UInt8) (h : l.length = n) : List.ofFn (ofList l h) = l := by
  subst h
  exact List.ofFn_get l

/-- Eight bytes make a word, the least significant first. -/
def word : Segment 8 ≃ UInt64 where
  toFun b := UInt64.ofNat (Bytes.value (List.ofFn b))
  invFun w := ofList (Bytes.littleEndian 8 w.toNat) (Bytes.length_littleEndian 8 _)
  left_inv b := by
    have hlength : (List.ofFn b).length = 8 := List.length_ofFn
    have hlt : Bytes.value (List.ofFn b) < 2 ^ 64 := by
      have hlt := Bytes.value_lt (List.ofFn b)
      rwa [hlength] at hlt
    have hbytes := Bytes.littleEndian_value (List.ofFn b)
    rw [hlength] at hbytes
    apply List.ofFn_injective
    rw [ofFn_ofList, UInt64.toNat_ofNat_of_lt' hlt, hbytes]
  right_inv w := by
    change UInt64.ofNat (Bytes.value (List.ofFn (ofList _ _))) = w
    rw [ofFn_ofList, Bytes.value_littleEndian (Bytes.toNat_lt w), UInt64.ofNat_toNat]

/-- Adds to the word that the bytes make. -/
def add (d : UInt64) : Segment 8 ≃ Segment 8 :=
  word.trans (Equiv.trans ⟨(· + d), (· - d), fun w => by grind, fun w => by grind⟩ word.symm)

theorem word_add (d : UInt64) (b : Segment 8) : word (add d b) = word b + d := by
  rw [add, Equiv.trans_apply, Equiv.trans_apply, Equiv.apply_symm_apply]
  rfl

/-- Puts a mask on the bytes. -/
def xor (d : Segment n) : Segment n ≃ Segment n :=
  Function.Involutive.toPerm (fun b i => b i ^^^ d i) fun b => by
    funext i
    change b i ^^^ d i ^^^ d i = b i
    rw [UInt8.xor_assoc, UInt8.xor_self, UInt8.xor_zero]

theorem ofFn_xor (d b : Segment n) :
    List.ofFn (xor d b) = Bytes.xor (List.ofFn b) (List.ofFn d) := by
  refine List.ext_getElem (by simp [Bytes.length_xor]) fun i _ _ => ?_
  simp only [Bytes.xor, List.getElem_ofFn, List.getElem_zipWith]
  rfl

/-- How the bytes of the random components are changed for a party, to make up for another value. -/
def rerandomise (shift : Segment n ≃ Segment n) :
    Party → (Segment n ≃ Segment n) × (Segment n ≃ Segment n)
  | .first => (.refl _, shift)
  | .second => (.refl _, .refl _)
  | .third => (shift, .refl _)

end Segment

theorem Source.word_eq (s : Source) : s.word = (Segment.word (s.segment 8), s.skip 8) := by
  rw [word, ← ofFn_segment]
  rfl

theorem Replicated.shares_congr {α : Type} {bytes : α → List UInt8} {combine : α → α → α}
    {s s' : Triple α} : ∀ {p : Party}, (redundant combine s).get p = (redundant combine s').get p →
    s.get p = s'.get p → (shares bytes combine s).get p = (shares bytes combine s').get p
  | .first, ht, hs => congrArg₂ (fun t s => PartyShare.ofBytes (bytes t) (bytes s)) ht hs
  | .second, ht, hs => congrArg₂ (fun t s => PartyShare.ofBytes (bytes t) (bytes s)) ht hs
  | .third, ht, hs => congrArg₂ (fun t s => PartyShare.ofBytes (bytes t) (bytes s)) ht hs

open Segment

/-! ### Numbers -/

namespace Additive

/-- The parties' texts of a number, from the bytes that are drawn for it. -/
def texts (num : UInt64) (a b : Segment 8) : Triple String :=
  (shares (split num (word a) (word b))).map PartyShare.text

theorem texts_draw (num : UInt64) (s : Source) :
    (shares (draw num s).1).map PartyShare.text =
      texts num (s.segment 8) ((s.skip 8).segment 8) := by
  simp only [texts, draw, Source.word_eq]

theorem texts_rerandomise (num num' : UInt64) (p : Party) (a b : Segment 8) :
    (texts num a b).get p =
      (texts num' ((rerandomise (add (num' - num)) p).1 a)
        ((rerandomise (add (num' - num)) p).2 b)).get p := by
  rw [texts, texts, Triple.get_map, Triple.get_map]
  refine congrArg PartyShare.text ?_
  have hthird : num - word a - word b = num' - word (add (num' - num) a) - word b := by
    rw [word_add]
    grind
  cases p with
  | first =>
    refine Replicated.shares_congr ?_ ?_
    · simp only [rerandomise, split, Replicated.redundant, Triple.get, word_add, Equiv.refl_apply]
      grind
    · simp only [rerandomise, split, Triple.get, Equiv.refl_apply]
  | second =>
    refine Replicated.shares_congr ?_ ?_
    · simp only [rerandomise, split, Replicated.redundant, Triple.get, Equiv.refl_apply]
    · simp only [rerandomise, split, Triple.get, Equiv.refl_apply]
  | third =>
    refine Replicated.shares_congr ?_ ?_
    · simp only [rerandomise, split, Replicated.redundant, Triple.get, Equiv.refl_apply, hthird]
    · simp only [rerandomise, split, Triple.get, Equiv.refl_apply, hthird]

end Additive

/-! ### Byte strings -/

namespace Bytewise

variable {plain plain' : List UInt8} {n : Nat}

/-- A mask with which one byte string is put for another. -/
theorem xor_exchange {c : List UInt8} (h : plain.length = n) (h' : plain'.length = n)
    (hc : c.length = n) :
    Bytes.xor plain' (Bytes.xor c (Bytes.xor plain plain')) = Bytes.xor plain c := by
  have hlength : (Bytes.xor plain c).length = plain'.length := by
    rw [Bytes.length_xor, h, h', hc, min_self]
  calc Bytes.xor plain' (Bytes.xor c (Bytes.xor plain plain'))
      = Bytes.xor (Bytes.xor (Bytes.xor plain c) plain') plain' := by ac_rfl
    _ = Bytes.xor plain c := Bytes.xor_xor_cancel hlength

/-- The parties' texts of a byte string, from the bytes that are drawn for it. -/
def texts (plain : List UInt8) (a b : Segment n) : Triple String :=
  (shares (split plain (List.ofFn a) (List.ofFn b))).map PartyShare.text

theorem texts_draw (h : plain ≠ []) (hn : plain.length = n) (s : Source) :
    (shares (draw plain s).1).map PartyShare.text =
      texts plain (s.segment n) ((s.skip n).segment n) := by
  rw [texts, draw, if_neg (mt List.isEmpty_iff.mp h), Source.ofFn_segment, Source.ofFn_segment,
    ← hn]
  rfl

theorem texts_rerandomise (h : plain.length = n) (h' : plain'.length = n) {d : Segment n}
    (hd : List.ofFn d = Bytes.xor plain plain') (p : Party) (a b : Segment n) :
    (texts plain a b).get p =
      (texts plain' ((rerandomise (Segment.xor d) p).1 a)
        ((rerandomise (Segment.xor d) p).2 b)).get p := by
  rw [texts, texts, Triple.get_map, Triple.get_map]
  refine congrArg PartyShare.text ?_
  have ha := xor_exchange h h' (List.length_ofFn (f := a))
  have hb := xor_exchange h h' (List.length_ofFn (f := b))
  cases p with
  | first =>
    refine Replicated.shares_congr ?_ rfl
    change Bytes.xor (List.ofFn a) (Bytes.xor (Bytes.xor plain (List.ofFn a)) (List.ofFn b)) =
      Bytes.xor (List.ofFn a)
        (Bytes.xor (Bytes.xor plain' (List.ofFn a)) (List.ofFn (Segment.xor d b)))
    rw [ofFn_xor, hd, Bytes.xor_assoc plain, Bytes.xor_comm (List.ofFn a) (List.ofFn b),
      ← Bytes.xor_assoc plain, ← hb]
    ac_rfl
  | second => exact Replicated.shares_congr rfl rfl
  | third =>
    have hthird : (split plain (List.ofFn a) (List.ofFn b)).p3 =
        (split plain' (List.ofFn (Segment.xor d a)) (List.ofFn b)).p3 := by
      rw [split, split, ofFn_xor, hd, ha]
    exact Replicated.shares_congr (congrArg (Bytes.xor (List.ofFn b)) hthird) hthird

end Bytewise

end TriShare
