import Mathlib.Data.List.Basic
import TriShare.Command.Store
/-!
The names in a path. A path that is joined has the names of both of its parts, and a name is a path
of one name, unless it is empty or has a slash in it.
-/

namespace TriShare.Path

theorem parts_ne_nil (cs : List Char) : parts cs ≠ [] := by
  cases cs with
  | nil => simp [parts]
  | cons c cs =>
    unfold parts
    split
    · simp
    · split <;> simp

/-- A slash separates the parts before it from those behind it. -/
theorem parts_append_slash (cs ds : List Char) :
    parts (cs ++ '/' :: ds) = parts cs ++ parts ds := by
  induction cs with
  | nil => simp [parts]
  | cons c cs ih =>
    rw [List.cons_append, parts, parts, ih]
    by_cases hc : c = '/'
    · simp [hc]
    · obtain ⟨part, rest, hparts⟩ := List.exists_cons_of_ne_nil (parts_ne_nil cs)
      simp [hc, hparts]

theorem slash_notMem_of_mem_parts {cs part : List Char} (h : part ∈ parts cs) : '/' ∉ part := by
  induction cs generalizing part with
  | nil => simp_all [parts]
  | cons c cs ih =>
    rw [parts] at h
    by_cases hc : c = '/'
    · rw [if_pos hc] at h
      rcases List.mem_cons.mp h with rfl | h
      · exact List.not_mem_nil
      · exact ih h
    · rw [if_neg hc] at h
      obtain ⟨first, rest, hparts⟩ := List.exists_cons_of_ne_nil (parts_ne_nil cs)
      simp only [hparts] at h
      rcases List.mem_cons.mp h with rfl | h
      · have hfirst : '/' ∉ first := ih (hparts ▸ List.mem_cons_self)
        simpa [hfirst] using fun heq => hc heq.symm
      · exact ih (hparts ▸ List.mem_cons_of_mem _ h)

theorem parts_of_slash_notMem {cs : List Char} (h : '/' ∉ cs) : parts cs = [cs] := by
  induction cs with
  | nil => rfl
  | cons c cs ih =>
    obtain ⟨hc, hcs⟩ := not_or.mp (mt List.mem_cons.mpr h)
    rw [parts, if_neg (Ne.symm hc), ih hcs]

/-! ### Names -/

theorem names_eq_singleton {name : String} (hne : name ≠ "") (h : '/' ∉ name.toList) :
    names name = [name] := by
  have hchars : name.toList ≠ [] := by simpa using hne
  simp [names, parts_of_slash_notMem h, hchars]

theorem slash_notMem_of_mem_names {path name : String} (h : name ∈ names path) :
    '/' ∉ name.toList := by
  obtain ⟨part, hpart, rfl⟩ := List.mem_map.mp h
  rw [String.toList_ofList]
  exact slash_notMem_of_mem_parts (List.mem_filter.mp hpart).1

/-- A joined path has the names of its parts. -/
theorem names_join (path name : String) : names (join path name) = names path ++ names name := by
  unfold join
  split
  · next hclosed =>
    have hlast : path.toList.getLast? = some '/' := beq_iff_eq.mp hclosed
    obtain ⟨cs, hcs⟩ : ∃ cs, path.toList = cs ++ ['/'] :=
      ⟨_, (List.dropLast_append_getLast? '/' hlast).symm⟩
    simp [names, hcs, parts_append_slash, parts]
  · simp [names, parts_append_slash]

/-- A name at the end of a path is the last step. -/
theorem steps_join {name : String} (hne : name ≠ "") (h : '/' ∉ name.toList) (path : String) :
    steps (join path name) = names path ++ [name] := by
  have hchars : name.toList ≠ [] := mt String.toList_eq_nil_iff.mp hne
  obtain ⟨before, hbefore⟩ : ∃ before, (join path name).toList = before ++ name.toList := by
    unfold join
    split
    · exact ⟨_, String.toList_append⟩
    · exact ⟨_, by rw [String.toList_append]⟩
  have hopen : isClosed (join path name) = false := by
    rw [isClosed, hbefore, List.getLast?_append_of_ne_nil _ hchars, beq_eq_false_iff_ne]
    exact fun hlast => h (List.mem_of_getLast? hlast)
  rw [steps, hopen, names_join, names_eq_singleton hne h]
  simp

/-! ### Stems -/

/-- A stem has no characters that its name has not. -/
theorem mem_of_mem_stemOf {name : String} {c : Char} (h : c ∈ (stemOf name).toList) :
    c ∈ name.toList := by
  unfold stemOf at h
  split at h
  · exact h
  · exact h
  · next before _ hdrop =>
    rw [String.toList_ofList, List.mem_reverse] at h
    have hmem := (List.dropWhile_sublist _).subset (hdrop ▸ List.mem_cons_of_mem _ h)
    exact List.mem_reverse.mp hmem

theorem mem_names_of_fileName? {path name : String} (h : fileName? path = some name) :
    name ∈ names path := by
  unfold fileName? at h
  split at h
  · cases h
  · cases h
  · next last _ hlast =>
    cases h
    exact (List.mem_filter.mp (List.mem_of_getLast? hlast)).1

theorem slash_notMem_of_stem? {path stem : String} (h : stem? path = some stem) :
    '/' ∉ stem.toList := by
  obtain ⟨name, hname, rfl⟩ := Option.map_eq_some_iff.mp h
  exact fun hmem =>
    slash_notMem_of_mem_names (mem_names_of_fileName? hname) (mem_of_mem_stemOf hmem)

end TriShare.Path
