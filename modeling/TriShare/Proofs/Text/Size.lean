import Mathlib.Algebra.BigOperators.Group.List.Basic
import Mathlib.Algebra.Order.Ring.Nat
/-!
The size of a text in bytes, from its characters: never less than their number, and equal to it when
each of them takes one byte.
-/

namespace TriShare.Text

theorem utf8ByteSize_ofList (cs : List Char) :
    (String.ofList cs).utf8ByteSize = (cs.map Char.utf8Size).sum := by
  induction cs with
  | nil => rfl
  | cons c cs ih =>
    rw [← List.singleton_append, String.ofList_append, String.utf8ByteSize_append, ih,
      ← String.singleton_eq_ofList, String.utf8ByteSize_singleton]
    rfl

/-- Every character takes at least one byte. -/
theorem length_toList_le (s : String) : s.toList.length ≤ s.utf8ByteSize := by
  conv_rhs => rw [← String.ofList_toList (s := s), utf8ByteSize_ofList]
  calc s.toList.length = (s.toList.map Char.utf8Size).length := List.length_map _ |>.symm
    _ ≤ (s.toList.map Char.utf8Size).sum := List.length_le_sum_of_one_le _ fun n hn => by
      obtain ⟨c, -, rfl⟩ := List.mem_map.mp hn
      exact c.utf8Size_pos

theorem utf8ByteSize_of_single {cs : List Char} (h : ∀ c ∈ cs, c.utf8Size = 1) :
    (String.ofList cs).utf8ByteSize = cs.length := by
  rw [utf8ByteSize_ofList, List.map_eq_replicate_iff.mpr h]
  simp

theorem utf8ByteSize_eq_length {text : String} (h : ∀ c ∈ text.toList, c.utf8Size = 1) :
    text.utf8ByteSize = text.length := by
  rw [← String.length_toList, ← utf8ByteSize_of_single h, String.ofList_toList]

end TriShare.Text
