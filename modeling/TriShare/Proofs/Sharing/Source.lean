import TriShare.Sharing.Source
/-!
Drawing from a source moves it along its tape and changes nothing else.
-/

namespace TriShare.Source

@[simp] theorem skip_zero (s : Source) : s.skip 0 = s := rfl

@[simp] theorem skip_skip (s : Source) (m n : Nat) : (s.skip m).skip n = s.skip (m + n) := by
  rw [skip, skip, skip, Nat.add_assoc]

@[simp] theorem tape_skip (s : Source) (n : Nat) : (s.skip n).tape = s.tape := rfl

@[simp] theorem drawn_skip (s : Source) (n : Nat) : (s.skip n).drawn = s.drawn + n := rfl

@[simp] theorem length_peek (s : Source) (n : Nat) : (s.peek n).length = n := by
  rw [peek, List.length_map, List.length_range]

/-- The bytes of two draws are those of one. -/
theorem peek_add (s : Source) (m n : Nat) : s.peek (m + n) = s.peek m ++ (s.skip m).peek n := by
  rw [peek, List.range_add, List.map_append, List.map_map, peek, peek]
  simp only [Function.comp_def, skip, Nat.add_assoc]

theorem take_peek (s : Source) (m n : Nat) : (s.peek (m + n)).take m = s.peek m := by
  rw [peek_add, List.take_left' (s.length_peek m)]

theorem drop_peek (s : Source) (m n : Nat) : (s.peek (m + n)).drop m = (s.skip m).peek n := by
  rw [peek_add, List.drop_left' (s.length_peek m)]

end TriShare.Source
