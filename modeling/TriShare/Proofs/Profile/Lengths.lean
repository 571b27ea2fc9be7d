import Mathlib.Algebra.Order.Ring.Nat
import TriShare.Proofs.Container.NameMap
import TriShare.Proofs.Record.Leaves
import TriShare.Profile.Profiler
/-!
What is kept of leaves that are taken in one after the other: under each name the greatest length of
the leaves with this name (`get?_gather`).
-/

namespace TriShare

theorem toOption_eq_some_iff {ε α : Type} {result : Except ε α} {a : α} :
    result.toOption = some a ↔ result = .ok a := by
  cases result <;> simp [Except.toOption]

/-! ### Greatest elements -/

/-- Lists with the same elements have the same greatest one. -/
theorem max?_congr {xs ys : List Nat} (h : ∀ n, n ∈ xs ↔ n ∈ ys) : xs.max? = ys.max? := by
  refine Option.ext fun m => ?_
  simp only [List.max?_eq_some_iff, h]

theorem exists_max?_ge {xs : List Nat} {n : Nat} (h : n ∈ xs) :
    ∃ m, xs.max? = some m ∧ m ∈ xs ∧ n ≤ m := by
  cases hmax : xs.max? with
  | none => simp [List.max?_eq_none_iff.mp hmax] at h
  | some m =>
    obtain ⟨hmem, hle⟩ := List.max?_eq_some_iff.mp hmax
    exact ⟨m, rfl, hmem, hle n h⟩

/-- The greatest of the elements of several lists is the greatest of their greatest, also after they
have been rounded. -/
theorem max?_map_of_parts {f : Nat → Nat} (hf : Monotone f) {xs : List Nat}
    {parts : List (List Nat)} (h : ∀ n, n ∈ xs ↔ ∃ part ∈ parts, n ∈ part) :
    xs.max?.map f = (parts.filterMap fun part => part.max?.map f).max? := by
  cases hmax : xs.max? with
  | none =>
    have hnil : xs = [] := List.max?_eq_none_iff.mp hmax
    have hparts : ∀ part ∈ parts, part = [] := by
      intro part hpart
      refine List.eq_nil_iff_forall_not_mem.mpr fun n hn => ?_
      have hmem := (h n).mpr ⟨part, hpart, hn⟩
      simp [hnil] at hmem
    have hnone : (parts.filterMap fun part => part.max?.map f) = [] := by
      refine List.filterMap_eq_nil_iff.mpr fun part hpart => ?_
      rw [hparts part hpart]
      rfl
    rw [hnone]
    rfl
  | some m =>
    obtain ⟨hmem, hle⟩ := List.max?_eq_some_iff.mp hmax
    symm
    rw [Option.map_some, List.max?_eq_some_iff]
    constructor
    · obtain ⟨part, hpart, hm⟩ := (h m).mp hmem
      have hgreatest : part.max? = some m :=
        List.max?_eq_some_iff.mpr ⟨hm, fun n hn => hle n ((h n).mpr ⟨part, hpart, hn⟩)⟩
      exact List.mem_filterMap.mpr ⟨part, hpart, by rw [hgreatest, Option.map_some]⟩
    · intro b hb
      obtain ⟨part, hpart, hb⟩ := List.mem_filterMap.mp hb
      obtain ⟨n, hn, rfl⟩ := Option.map_eq_some_iff.mp hb
      exact hf (hle n ((h n).mpr ⟨part, hpart, (List.max?_eq_some_iff.mp hn).1⟩))

theorem max?_concat (xs : List Nat) (n : Nat) : (xs ++ [n]).max? = some (raise n xs.max?) := by
  cases xs with
  | nil => rfl
  | cons x xs =>
    rw [List.cons_append, List.max?_cons', List.max?_cons', List.foldl_append]
    rfl

/-- Nothing is greater than what is there already exactly if further elements leave it the
greatest. -/
theorem max?_toList_append_eq_self_iff {present : Option Nat} {xs : List Nat} :
    (present.toList ++ xs).max? = present ↔ ∀ n ∈ xs, ∃ m, present = some m ∧ n ≤ m := by
  cases present with
  | none => simp [List.max?_eq_none_iff, List.eq_nil_iff_forall_not_mem]
  | some m =>
    rw [Option.toList_some, List.singleton_append, List.max?_eq_some_iff]
    simp

/-- Fewer elements have the same greatest one, up to rounding, if what they leave out is not above
it. -/
theorem max?_map_eq_iff_of_subset {f : Nat → Nat} (hf : Monotone f) {xs ys : List Nat}
    (h : ys ⊆ xs) :
    xs.max?.map f = ys.max?.map f ↔ ∀ n ∈ xs, ∃ b, ys.max?.map f = some b ∧ f n ≤ b := by
  constructor
  · intro heq n hn
    obtain ⟨m, hmax, -, hle⟩ := exists_max?_ge hn
    exact ⟨f m, by rw [← heq, hmax, Option.map_some], hf hle⟩
  · intro hbound
    cases hmax : xs.max? with
    | none =>
      rw [List.max?_eq_none_iff.mp hmax] at h
      rw [List.subset_nil.mp h]
      rfl
    | some m =>
      obtain ⟨hmem, hle⟩ := List.max?_eq_some_iff.mp hmax
      obtain ⟨b, hb, hmb⟩ := hbound m hmem
      obtain ⟨k, hk, rfl⟩ := Option.map_eq_some_iff.mp hb
      have hkm : f k ≤ f m := hf (hle k (h (List.max?_mem hk)))
      rw [hb, Option.map_some, hmb.antisymm hkm]

/-! ### Lengths under a name -/

section Gather

variable {α : Type} (length? : Leaf α → Option Nat)

/-- The lengths of the leaves with a name. -/
def lengthsUnder (name : String) (leaves : List (Leaf α)) : List Nat :=
  leaves.filterMap fun leaf => if leaf.name = name then length? leaf else none

/-- Takes a leaf into account. -/
def note (lengths : NameMap Nat) (leaf : Leaf α) : NameMap Nat :=
  match length? leaf with
  | none => lengths
  | some length => lengths.alter leaf.name (raise length)

/-- The greatest length under each name. -/
def gather (leaves : List (Leaf α)) : NameMap Nat := leaves.foldl (note length?) NameMap.empty

variable {length?}

theorem mem_lengthsUnder {name : String} {leaves : List (Leaf α)} {n : Nat} :
    n ∈ lengthsUnder length? name leaves ↔
      ∃ leaf ∈ leaves, leaf.name = name ∧ length? leaf = some n := by
  simp only [lengthsUnder, List.mem_filterMap, Option.ite_none_right_eq_some]

theorem lengthsUnder_append (name : String) (leaves rest : List (Leaf α)) :
    lengthsUnder length? name (leaves ++ rest) =
      lengthsUnder length? name leaves ++ lengthsUnder length? name rest :=
  List.filterMap_append

theorem lengthsUnder_singleton (name : String) (leaf : Leaf α) :
    lengthsUnder length? name [leaf] =
      if leaf.name = name then (length? leaf).toList else [] := by
  rw [lengthsUnder, List.filterMap_cons, List.filterMap_nil]
  split <;> cases h : length? leaf <;> simp_all

/-- Under each name there is afterwards the greatest of what was there and of the lengths of the
leaves with this name. -/
theorem get?_foldl_note (name : String) (leaves : List (Leaf α)) (lengths : NameMap Nat) :
    (leaves.foldl (note length?) lengths).get? name =
      ((lengths.get? name).toList ++ lengthsUnder length? name leaves).max? := by
  induction leaves using List.reverseRecOn with
  | nil => cases h : lengths.get? name <;> simp [lengthsUnder, h]
  | append_singleton seen leaf ih =>
    rw [List.foldl_append, List.foldl_cons, List.foldl_nil, note, lengthsUnder_append,
      lengthsUnder_singleton]
    cases hlength : length? leaf with
    | none => simp [ih]
    | some length =>
      rw [NameMap.get?_alter]
      by_cases hname : leaf.name = name
      · rw [if_pos hname.symm, if_pos hname, hname, ih, Option.toList_some, ← List.append_assoc,
          max?_concat]
      · rw [if_neg (Ne.symm hname), if_neg hname, List.append_nil, ih]

theorem get?_gather (name : String) (leaves : List (Leaf α)) :
    (gather length? leaves).get? name = (lengthsUnder length? name leaves).max? :=
  get?_foldl_note name leaves NameMap.empty

/-- Leaves change nothing exactly if each of them is no longer than what is there under its name. -/
theorem foldl_note_eq_self_iff {leaves : List (Leaf α)} {lengths : NameMap Nat} :
    leaves.foldl (note length?) lengths = lengths ↔ ∀ leaf ∈ leaves, ∀ n, length? leaf = some n →
      ∃ m, lengths.get? leaf.name = some m ∧ n ≤ m := by
  constructor
  · intro h leaf hleaf n hn
    have hmax := @get?_foldl_note α length? leaf.name leaves lengths
    rw [h] at hmax
    refine max?_toList_append_eq_self_iff.mp hmax.symm n ?_
    exact mem_lengthsUnder.mpr ⟨leaf, hleaf, rfl, hn⟩
  · intro h
    refine NameMap.ext fun name => ?_
    rw [get?_foldl_note, max?_toList_append_eq_self_iff]
    intro n hn
    obtain ⟨leaf, hleaf, rfl, hlength⟩ := mem_lengthsUnder.mp hn
    exact h leaf hleaf n hlength

end Gather

end TriShare
