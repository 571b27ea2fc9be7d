import Mathlib.Data.List.Nodup
import Mathlib.Data.String.Basic
import TriShare.Container.NameMap
/-!
A map from names is known by what it holds under each name: `ext` says that there is one map only
with given values, and the other lemmas say what a change does to them.
-/

namespace TriShare

namespace Entries

variable {α β : Type} {name : String} {value : α}

theorem Ordered.nodup {entries : List (String × α)} (h : Ordered entries) : entries.Nodup := by
  refine List.Pairwise.imp (fun hlt heq => ?_) h
  rw [heq] at hlt
  exact lt_irrefl _ hlt

theorem get?_eq_none : ∀ {entries : List (String × α)}, (∀ e ∈ entries, name < e.1) →
    get? name entries = none
  | [], _ => rfl
  | (key, value) :: rest, h => by
    have hlt : name < key := h _ List.mem_cons_self
    rw [get?, if_neg hlt.ne]
    exact get?_eq_none fun e he => h e (List.mem_cons_of_mem _ he)

/-- What is found under a name is the entry with that name. -/
theorem get?_eq_some_iff {entries : List (String × α)} (h : Ordered entries) :
    get? name entries = some value ↔ (name, value) ∈ entries := by
  induction entries with
  | nil => simp [get?]
  | cons e rest ih =>
    obtain ⟨key, present⟩ := e
    obtain ⟨hkey, hrest⟩ := List.pairwise_cons.mp h
    rw [get?, List.mem_cons, Prod.mk.injEq]
    split
    · next heq =>
      subst heq
      refine ⟨fun hsome => .inl ⟨rfl, (Option.some.inj hsome).symm⟩, ?_⟩
      rintro (⟨-, rfl⟩ | hmem)
      · rfl
      · exact absurd (hkey _ hmem) (lt_irrefl _)
    · next hne =>
      rw [ih hrest]
      exact ⟨Or.inr, fun hmem => hmem.resolve_left fun heq => hne heq.1⟩

theorem get?_alter_self {f : Option α → α} {entries : List (String × α)} (h : Ordered entries) :
    get? name (alter name f entries) = some (f (get? name entries)) := by
  induction entries with
  | nil => simp [alter, get?]
  | cons e rest ih =>
    obtain ⟨key, present⟩ := e
    obtain ⟨hkey, hrest⟩ := List.pairwise_cons.mp h
    rw [alter]
    split
    · next hlt =>
      -- The name is not there yet: all names of the list come after it.
      have hnone : get? name ((key, present) :: rest) = none := by
        refine get?_eq_none fun e he => ?_
        rcases List.mem_cons.mp he with rfl | he
        · exact hlt
        · exact hlt.trans (hkey e he)
      rw [get?, if_pos rfl, hnone]
    · split
      · next heq => simp [get?, heq]
      · next hne => rw [get?, if_neg hne, ih hrest, get?, if_neg hne]

theorem get?_alter_of_ne {other : String} (h : other ≠ name) {f : Option α → α}
    (entries : List (String × α)) : get? other (alter name f entries) = get? other entries := by
  induction entries with
  | nil => simp [alter, get?, h]
  | cons e rest ih =>
    obtain ⟨key, present⟩ := e
    rw [alter]
    split
    · rw [get?, if_neg h]
    · split
      · next heq => rw [get?, get?, ← heq, if_neg h, if_neg h]
      · rw [get?, get?, ih]

theorem get?_map (f : α → β) (entries : List (String × α)) :
    get? name (entries.map fun (key, value) => (key, f value)) = (get? name entries).map f := by
  induction entries with
  | nil => rfl
  | cons e rest ih =>
    obtain ⟨key, present⟩ := e
    rw [List.map_cons, get?, get?, ih]
    split <;> rfl

/-! ### Putting entries in order -/

theorem insert_of_forall_lt {entries : List (String × α)} (h : ∀ e ∈ entries, e.1 < name) :
    insert name value entries = entries ++ [(name, value)] := by
  induction entries with
  | nil => rfl
  | cons e rest ih =>
    obtain ⟨key, present⟩ := e
    have hkey : key < name := h _ List.mem_cons_self
    have hrest := ih fun e he => h e (List.mem_cons_of_mem _ he)
    rw [insert, alter, if_neg hkey.not_gt, if_neg hkey.ne']
    exact congrArg ((key, present) :: ·) hrest

theorem foldl_insert_of_ordered : ∀ {entries acc : List (String × α)}, Ordered (acc ++ entries) →
    entries.foldl (fun acc (name, value) => insert name value acc) acc = acc ++ entries
  | [], acc, _ => (List.append_nil acc).symm
  | (name, value) :: rest, acc, h => by
    have hlast : ∀ e ∈ acc, e.1 < name := fun e he =>
      (List.pairwise_append.mp h).2.2 e he _ List.mem_cons_self
    rw [List.append_cons] at h
    calc ((name, value) :: rest).foldl (fun acc (name, value) => insert name value acc) acc
        = rest.foldl (fun acc (name, value) => insert name value acc) (insert name value acc) := rfl
      _ = acc ++ (name, value) :: rest := by
        rw [insert_of_forall_lt hlast, foldl_insert_of_ordered h, ← List.append_cons]

/-- Entries that are in order stay as they are. -/
theorem ofList_of_ordered {entries : List (String × α)} (h : Ordered entries) :
    ofList entries = entries :=
  foldl_insert_of_ordered h

theorem mem_insert {entries : List (String × α)} {e : String × α}
    (h : e ∈ insert name value entries) : e = (name, value) ∨ e ∈ entries := by
  induction entries with
  | nil => exact .inl (List.mem_singleton.mp h)
  | cons first rest ih =>
    obtain ⟨key, present⟩ := first
    rw [insert, alter] at h
    split at h
    · exact List.mem_cons.mp h
    · split at h
      · next heq =>
        subst heq
        exact (List.mem_cons.mp h).imp id (List.mem_cons_of_mem _)
      · rcases List.mem_cons.mp h with rfl | h
        · exact .inr List.mem_cons_self
        · exact (ih h).imp id (List.mem_cons_of_mem _)

theorem mem_of_mem_foldl_insert : ∀ {entries acc : List (String × α)} {e : String × α},
    e ∈ entries.foldl (fun acc (name, value) => insert name value acc) acc → e ∈ acc ∨ e ∈ entries
  | [], _, _, h => .inl h
  | (key, value) :: rest, acc, e, h => by
    rcases @mem_of_mem_foldl_insert rest (insert key value acc) e h with h | h
    · rcases mem_insert h with rfl | h
      · exact .inr List.mem_cons_self
      · exact .inl h
    · exact .inr (List.mem_cons_of_mem _ h)

/-- Nothing comes in when entries are put in order. -/
theorem mem_of_mem_ofList {entries : List (String × α)} {e : String × α} (h : e ∈ ofList entries) :
    e ∈ entries :=
  (mem_of_mem_foldl_insert h).resolve_left List.not_mem_nil

end Entries

namespace NameMap

variable {α β : Type} {name : String}

theorem get?_alter (m : NameMap α) (f : Option α → α) (other : String) :
    (m.alter name f).get? other =
      if other = name then some (f (m.get? name)) else m.get? other := by
  split
  · next h =>
    subst h
    exact Entries.get?_alter_self m.ordered
  · next h => exact Entries.get?_alter_of_ne h m.entries

@[simp] theorem get?_map (f : α → β) (m : NameMap α) (name : String) :
    (m.map f).get? name = (m.get? name).map f :=
  Entries.get?_map f m.entries

/-- Two maps with the same values under all names are one. -/
theorem ext {m m' : NameMap α} (h : ∀ name, m.get? name = m'.get? name) : m = m' := by
  obtain ⟨entries, ordered⟩ := m
  obtain ⟨entries', ordered'⟩ := m'
  have hmem : ∀ e : String × α, e ∈ entries ↔ e ∈ entries' := by
    rintro ⟨name, value⟩
    rw [← Entries.get?_eq_some_iff ordered, ← Entries.get?_eq_some_iff ordered']
    exact (congrArg (· = some value) (h name)).to_iff
  have hperm : entries.Perm entries' :=
    (List.perm_ext_iff_of_nodup ordered.nodup ordered'.nodup).mpr hmem
  obtain rfl := hperm.eq_of_pairwise
    (fun a b _ _ hab hba => absurd (hab.trans hba) (lt_irrefl _)) ordered ordered'
  rfl

end NameMap

end TriShare
