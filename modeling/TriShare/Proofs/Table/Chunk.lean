import Mathlib.Algebra.BigOperators.Group.List.Basic
import Mathlib.Data.List.Pairwise
import Mathlib.Tactic.Ring
import TriShare.Table.Chunk
/-!
The sizes of the chunks of a table add up to its length, and differ by at most one. Laid out one
after another, the chunks tile the positions of the table (`tiles_layOut`), so that each position
lies in exactly one of them.
-/

namespace TriShare.Chunk

/-! ### Sizes -/

/-- Of `n` shares of `base`, the first `rest` are larger by one. -/
theorem sum_shares (base rest n : Nat) :
    ((List.range n).map fun i => base + if i < rest then 1 else 0).sum =
      n * base + min n rest := by
  induction n with
  | zero => simp
  | succ n ih =>
    rw [List.sum_range_succ, ih, Nat.succ_mul]
    split <;> omega

theorem count_pos (length parts : Nat) : 0 < count length parts := by
  rw [count]
  omega

theorem sum_sizes (length parts : Nat) : (sizes length parts).sum = length := by
  have hrest : length % count length parts < count length parts :=
    Nat.mod_lt _ (count_pos length parts)
  rw [sizes, sum_shares, min_eq_right hrest.le]
  exact Nat.div_add_mod _ _

/-- The larger chunks come first, and are larger by one. -/
theorem pairwise_sizes (length parts : Nat) :
    (sizes length parts).Pairwise fun a b => b ≤ a ∧ a ≤ b + 1 := by
  rw [sizes, List.pairwise_map]
  refine List.pairwise_lt_range.imp fun {i j} hij => ?_
  split <;> split <;> omega

/-- Each size is the quotient, or larger by one. -/
theorem le_of_mem_sizes {length parts size : Nat} (h : size ∈ sizes length parts) :
    length / count length parts ≤ size := by
  rw [sizes, List.mem_map] at h
  obtain ⟨i, -, rfl⟩ := h
  exact Nat.le_add_right _ _

/-- There is an empty chunk only in a table without records. -/
theorem pos_of_mem_sizes {length parts size : Nat} (hlength : 0 < length)
    (h : size ∈ sizes length parts) : 0 < size := by
  have hcount : count length parts ≤ length := by
    rw [count]
    omega
  have hdiv : 0 < length / count length parts := Nat.div_pos hcount (count_pos length parts)
  exact Nat.lt_of_lt_of_le hdiv (le_of_mem_sizes h)

/-! ### Tilings -/

/-- How many positions a chunk has. -/
def size (c : Chunk) : Nat := c.stop - c.start

/-- The positions of a chunk, in order. -/
def positions (c : Chunk) : List Nat := List.range' c.start c.size

instance : Membership Nat Chunk := ⟨fun c i => c.start ≤ i ∧ i < c.stop⟩

/-- Chunks that are not empty follow each other from one position up to another. -/
inductive Tiles : Nat → Nat → List Chunk → Prop
  | nil {position : Nat} : Tiles position position []
  | cons {c : Chunk} {stop : Nat} {rest : List Chunk} (pos : c.start < c.stop)
      (follow : Tiles c.stop stop rest) : Tiles c.start stop (c :: rest)

/-- Chunks tile the positions from where they are laid out, as many as their sizes come to. -/
theorem tiles_layOut : ∀ (start : Nat) (sizes : List Nat),
    Tiles start (start + sizes.sum) (layOut start sizes)
  | start, [] => .nil
  | start, size :: rest => by
    rw [layOut, List.sum_cons]
    split
    · next hzero =>
      rw [hzero, Nat.zero_add]
      exact tiles_layOut start rest
    · next hsize =>
      have pos : start < start + size := by omega
      have follow := tiles_layOut (start + size) rest
      rw [Nat.add_assoc] at follow
      exact .cons (c := ⟨start, start + size⟩) pos follow

theorem Tiles.le {start stop : Nat} {chunks : List Chunk} (h : Tiles start stop chunks) :
    start ≤ stop := by
  induction h with
  | nil => exact Nat.le_refl _
  | cons pos _ ih => omega

/-- One after the other, the chunks have every position between their ends. -/
theorem Tiles.flatMap_positions {start stop : Nat} {chunks : List Chunk}
    (h : Tiles start stop chunks) :
    chunks.flatMap positions = List.range' start (stop - start) := by
  induction h with
  | nil => simp
  | @cons c stop rest pos follow ih =>
    have hle := follow.le
    have hsize : stop - c.start = c.size + (stop - c.stop) := by
      rw [size]
      omega
    have hstart : c.stop = c.start + 1 * c.size := by
      rw [size]
      omega
    rw [List.flatMap_cons, ih, positions, hsize, hstart, List.range'_append]

theorem Tiles.start_le {start stop : Nat} {chunks : List Chunk} (h : Tiles start stop chunks) :
    ∀ c ∈ chunks, start ≤ c.start := by
  induction h with
  | nil => simp
  | cons pos _ ih =>
    intro c hc
    rcases List.mem_cons.mp hc with rfl | hc
    · exact Nat.le_refl _
    · have hle := ih c hc
      omega

/-- Every position between the ends lies in one chunk, and in no other one. -/
theorem Tiles.existsUnique {start stop i : Nat} {chunks : List Chunk}
    (h : Tiles start stop chunks) (hstart : start ≤ i) (hstop : i < stop) :
    ∃! k : Nat, ∃ c : Chunk, chunks[k]? = some c ∧ i ∈ c := by
  induction h with
  | nil => omega
  | @cons c stop rest pos follow ih =>
    by_cases hi : i < c.stop
    · refine ⟨0, ⟨c, rfl, hstart, hi⟩, ?_⟩
      rintro k ⟨c', hk, hle, -⟩
      cases k with
      | zero => rfl
      | succ k =>
        -- Later chunks start behind the position.
        have hlater := follow.start_le c' (List.mem_of_getElem? hk)
        omega
    · obtain ⟨k, ⟨c', hk, hmem⟩, hunique⟩ := ih (by omega) hstop
      refine ⟨k + 1, ⟨c', hk, hmem⟩, ?_⟩
      rintro k' ⟨c'', hk', hmem'⟩
      cases k' with
      | zero =>
        obtain rfl : c = c'' := Option.some.inj hk'
        exact absurd hmem'.2 hi
      | succ k' => rw [hunique k' ⟨c'', hk', hmem'⟩]

/-! ### The chunks of a table -/

theorem layOut_append : ∀ (start : Nat) (before after : List Nat),
    layOut start (before ++ after) = layOut start before ++ layOut (start + before.sum) after
  | start, [], after => by simp [layOut]
  | start, size :: before, after => by
    rw [List.cons_append, layOut, layOut, List.sum_cons]
    split
    · next hzero => rw [layOut_append start before after, hzero, Nat.zero_add]
    · rw [layOut_append (start + size) before after, Nat.add_assoc, List.cons_append]

/-- Where no size is zero, the chunks have these sizes. -/
theorem map_size_layOut : ∀ {start : Nat} {sizes : List Nat}, (∀ size ∈ sizes, 0 < size) →
    (layOut start sizes).map size = sizes
  | _, [], _ => rfl
  | start, size :: rest, h => by
    obtain ⟨hsize, hrest⟩ := List.forall_mem_cons.mp h
    rw [layOut, if_neg (Nat.ne_of_gt hsize), List.map_cons, map_size_layOut hrest, Chunk.size,
      Nat.add_sub_cancel_left]

theorem ranges_zero (parts : Nat) : ranges 0 parts = [] := by
  have hcount : count 0 parts = 1 := by
    rw [count]
    omega
  rw [ranges, sizes, hcount]
  rfl

theorem map_size_ranges {length : Nat} (h : 0 < length) (parts : Nat) :
    (ranges length parts).map size = sizes length parts :=
  map_size_layOut fun _ hsize => pos_of_mem_sizes h hsize

theorem length_ranges (length parts : Nat) :
    (ranges length parts).length = min (max parts 1) length := by
  rcases Nat.eq_zero_or_pos length with rfl | hlength
  · rw [ranges_zero, List.length_nil, Nat.min_zero]
  · have hsizes := congrArg List.length (map_size_ranges hlength parts)
    rw [List.length_map, sizes, List.length_map, List.length_range, count] at hsizes
    omega

theorem pairwise_ranges (length parts : Nat) :
    (ranges length parts).Pairwise fun c c' => c'.size ≤ c.size ∧ c.size ≤ c'.size + 1 := by
  rcases Nat.eq_zero_or_pos length with rfl | hlength
  · rw [ranges_zero]
    exact .nil
  · have hsizes := pairwise_sizes length parts
    rwa [← map_size_ranges hlength parts, List.pairwise_map] at hsizes

/-- The chunks of a table of some length, so many of which were asked for. They are not empty,
follow each other from its beginning to its end, and have each of its positions once and in order.
There are as many as were asked for, but at least one and no more than there are positions. The
larger ones come first, and are larger by one. -/
structure Partitions (length parts : Nat) (chunks : List Chunk) : Prop where
  tiles : Tiles 0 length chunks
  covers : ∀ i < length, ∃! k : Nat, ∃ c : Chunk, chunks[k]? = some c ∧ i ∈ c
  enumerates : chunks.flatMap positions = List.range length
  length_eq : chunks.length = min (max parts 1) length
  balanced : chunks.Pairwise fun c c' => c'.size ≤ c.size ∧ c.size ≤ c'.size + 1

/-- A table is partitioned into its chunks, whatever its length is and however many are asked for.
On the way, behind some of the chunks, neither the quotient nor the size of the next one takes the
sum of the sizes beyond the length. -/
theorem ranges_partitions (length parts : Nat) :
    Partitions length parts (ranges length parts) ∧
    ∀ before size after, sizes length parts = before ++ size :: after →
      ranges length parts = layOut 0 before ++ layOut before.sum (size :: after) ∧
      before.sum + length / count length parts ≤ before.sum + size ∧
      before.sum + size ≤ length := by
  have htiles : Tiles 0 length (ranges length parts) := by
    have h := tiles_layOut 0 (sizes length parts)
    rwa [sum_sizes, Nat.zero_add] at h
  refine ⟨?_, fun before size after hsizes => ?_⟩
  · constructor
    case tiles => exact htiles
    case covers => exact fun i hi => htiles.existsUnique (Nat.zero_le i) hi
    case enumerates => rw [htiles.flatMap_positions, Nat.sub_zero, List.range_eq_range']
    case length_eq => exact length_ranges length parts
    case balanced => exact pairwise_ranges length parts
  · have hsum := sum_sizes length parts
    rw [hsizes, List.sum_append, List.sum_cons] at hsum
    have hmem : size ∈ sizes length parts := by simp [hsizes]
    have hbase := le_of_mem_sizes hmem
    refine ⟨?_, by omega, by omega⟩
    rw [ranges, hsizes, layOut_append, Nat.zero_add]

/-- Ten records in three chunks. -/
theorem ranges_partitions_ten :
    sizes 10 3 = [4] ++ 3 :: [3] ∧ ranges 10 3 = [⟨0, 4⟩, ⟨4, 7⟩, ⟨7, 10⟩] ∧
      Partitions 10 3 (ranges 10 3) ∧ [4].sum + 3 ≤ 10 := by
  have hpartitions := ranges_partitions 10 3
  exact ⟨rfl, rfl, hpartitions.1, (hpartitions.2 [4] 3 [3] rfl).2.2⟩

end TriShare.Chunk
