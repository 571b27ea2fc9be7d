import TriShare.Proofs.Profile.Run
/-!
What a profiler keeps of the records that it rejects. It takes in the values of a record one after
the other up to the first that is at fault (`observeFields_eq`). A rejected record is therefore not
counted, but what stands before its fault stays, and `rejected_trace` says for which runs this
shows.
-/

namespace TriShare

variable {schema : Schema}

/-- What is taken in of a record: all that stands before its first fault. -/
def takenOf (schema : Schema) (record : PartyRecord) : List (Leaf PartyValue) :=
  (Fields.stops schema [] record).takeWhile fun stop => (stop.measure? schema).isSome

theorem takenOf_of_accepted {record : PartyRecord} (h : Accepted schema [] record) :
    takenOf schema record = (Fields.leaves [] record).map (Leaf.map .leaf) :=
  takeWhile_of_accepted h

/-! ### Steps -/

namespace Profiler

variable {p : Profiler} {index : Nat} {record : PartyRecord} {calls : List (Nat × PartyRecord)}

/-- The lengths once a record is shown, whatever comes of it. -/
def lengthsWith (p : Profiler) (record : PartyRecord) : NameMap Nat :=
  (takenOf p.schema record).foldl (note (Leaf.measure? p.schema)) p.lengths

/-- What can come of showing a record: it is counted only if it is accepted, but in either case what
is taken in of it stays. -/
inductive Observed (p : Profiler) (index : Nat) (record : PartyRecord) :
    Except Error Unit × Profiler → Prop
  | accepted (h : Accepted p.schema [] record) :
    Observed p index record (.ok (), ⟨p.schema, p.lengthsWith record, p.records + 1⟩)
  | rejected {stop : Leaf PartyValue} {e : FieldError} (h : ¬Accepted p.schema [] record)
    (hstop : stop ∈ Fields.stops p.schema [] record) (he : stop.measure p.schema = .error e) :
    Observed p index record
      (.error (.field index stop.path e), ⟨p.schema, p.lengthsWith record, p.records⟩)

theorem observe_observed (p : Profiler) (index : Nat) (record : PartyRecord) :
    Observed p index record (p.observe index record) := by
  have hfields : observeFields p.schema "" record p.lengths =
      takeIn p.schema (Fields.stops p.schema [] record) p.lengths := observeFields_eq [] record _
  have hlengths := @takeIn_snd p.schema (Fields.stops p.schema [] record) p.lengths
  have haccepted : Accepted p.schema [] record ↔
      (takeIn p.schema (Fields.stops p.schema [] record) p.lengths).1 = .ok () :=
    accepted_iff_stops.trans takeIn_fst_eq_ok_iff.symm
  rw [observe, hfields]
  cases hresult : takeIn p.schema (Fields.stops p.schema [] record) p.lengths with
  | mk outcome lengths =>
    rw [hresult] at hlengths haccepted
    obtain rfl : lengths = p.lengthsWith record := hlengths
    cases outcome with
    | ok u => exact .accepted (haccepted.mpr rfl)
    | error r =>
      obtain ⟨stop, hstop, e, he, rfl⟩ := exists_of_takeIn_error (congrArg Prod.fst hresult)
      refine .rejected (fun h => ?_) hstop he
      cases haccepted.mp h

/-- Whether a record is accepted does not depend on what was seen before. -/
theorem observe_fst_eq_ok_iff :
    (p.observe index record).1 = .ok () ↔ Accepted p.schema [] record := by
  cases hresult : p.observe index record with
  | mk outcome q =>
    have h := hresult ▸ observe_observed p index record
    cases h with
    | accepted h => simp [h]
    | rejected h => simp [h]

theorem exists_observe_error_iff :
    (∃ e, (p.observe index record).1 = .error e) ↔ ¬Accepted p.schema [] record := by
  rw [← observe_fst_eq_ok_iff]
  cases (p.observe index record).1 <;> simp

/-- A rejected record leaves a profiler as it was exactly if nothing that is taken in of it is
longer than what was seen under the same name. -/
theorem observe_snd_eq_self_iff (h : ¬Accepted p.schema [] record) :
    (p.observe index record).2 = p ↔ ∀ leaf ∈ takenOf p.schema record, ∀ n,
      leaf.measure? p.schema = some n → ∃ m, p.lengths.get? leaf.name = some m ∧ n ≤ m := by
  rw [← foldl_note_eq_self_iff]
  cases hresult : p.observe index record with
  | mk outcome q =>
    have hobserved := hresult ▸ observe_observed p index record
    cases hobserved with
    | accepted haccepted => exact absurd haccepted h
    | rejected =>
      refine ⟨fun heq => congrArg Profiler.lengths heq, fun heq => ?_⟩
      have hlengths : p.lengthsWith record = p.lengths := heq
      simp only [hlengths]

/-! ### Runs -/

/-- Shows records with their indices, whatever comes of each. -/
def observeEach (p : Profiler) (calls : List (Nat × PartyRecord)) : Profiler :=
  calls.foldl (fun p call => (p.observe call.1 call.2).2) p

/-- The records that are accepted when records are shown one after the other. -/
def accepted (p : Profiler) : List (Nat × PartyRecord) → List (Nat × PartyRecord)
  | [] => []
  | (index, record) :: rest =>
    match p.observe index record with
    | (.ok (), q) => (index, record) :: accepted q rest
    | (.error _, q) => accepted q rest

/-- All that is taken in of records, accepted or not. -/
def taken (schema : Schema) (calls : List (Nat × PartyRecord)) : List (Leaf PartyValue) :=
  calls.flatMap fun call => takenOf schema call.2

/-- The state after records are shown: everything taken in of them is in the lengths, and only the
accepted ones are counted. -/
theorem observeEach_eq : ∀ (calls : List (Nat × PartyRecord)) (p : Profiler), p.observeEach calls =
    ⟨p.schema, (taken p.schema calls).foldl (note (Leaf.measure? p.schema)) p.lengths,
      p.records + (p.accepted calls).length⟩
  | [], p => rfl
  | (index, record) :: rest, p => by
    have hstep : p.observeEach ((index, record) :: rest) =
      (p.observe index record).2.observeEach rest := rfl
    have htaken : taken p.schema ((index, record) :: rest) =
      takenOf p.schema record ++ taken p.schema rest := List.flatMap_cons
    rw [hstep, observeEach_eq rest, htaken, List.foldl_append, accepted]
    cases hresult : p.observe index record with
    | mk outcome q =>
      have h := hresult ▸ observe_observed p index record
      cases h with
      | accepted h => simp [lengthsWith, Nat.add_assoc, Nat.add_comm]
      | rejected h => simp [lengthsWith]

theorem observeEach_schema (p : Profiler) (calls : List (Nat × PartyRecord)) :
    (p.observeEach calls).schema = p.schema := by
  rw [observeEach_eq]

/-- The accepted records are those that are accepted when they are shown alone. -/
theorem mem_accepted_iff {call : Nat × PartyRecord} :
    ∀ {calls : List (Nat × PartyRecord)} {p : Profiler},
      call ∈ p.accepted calls ↔ call ∈ calls ∧ Accepted p.schema [] call.2
  | [], p => by simp [accepted]
  | (index, record) :: rest, p => by
    rw [accepted]
    cases hresult : p.observe index record with
    | mk outcome q =>
      have h := hresult ▸ observe_observed p index record
      cases h with
      | accepted h =>
        simp only [List.mem_cons, mem_accepted_iff]
        grind
      | rejected h =>
        simp only [List.mem_cons, mem_accepted_iff]
        grind

theorem mem_lengthsUnder_taken {name : String} {n : Nat} :
    n ∈ lengthsUnder (Leaf.measure? schema) name (taken schema calls) ↔
      ∃ call ∈ calls, ∃ leaf ∈ takenOf schema call.2,
        leaf.name = name ∧ leaf.measure? schema = some n := by
  simp only [mem_lengthsUnder, taken, List.mem_flatMap]
  constructor
  · rintro ⟨leaf, ⟨call, hcall, hleaf⟩, hname⟩
    exact ⟨call, hcall, leaf, hleaf, hname⟩
  · rintro ⟨call, hcall, leaf, hleaf, hname⟩
    exact ⟨leaf, ⟨call, hcall, hleaf⟩, hname⟩

theorem finish_observeEach (hne : (new schema).accepted calls ≠ []) :
    ((new schema).observeEach calls).finish =
      .ok (widthsOf schema (Leaf.measure? schema) (taken schema calls)) := by
  have hrecords : 0 + ((new schema).accepted calls).length ≠ 0 := by
    rw [Nat.zero_add]
    exact mt List.length_eq_zero_iff.mp hne
  rw [observeEach_eq, finish]
  exact if_neg hrecords

theorem finish_observeEach_of_nil (h : (new schema).accepted calls = []) :
    ((new schema).observeEach calls).finish = .error .emptyTable := by
  rw [observeEach_eq, h]
  rfl

/-! ### Traces -/

/-- A record that is rejected in the course of a run leaves the profiler as it was. -/
def Unchanged (schema : Schema) (calls : List (Nat × PartyRecord)) : Prop :=
  ∀ before index record after e, calls = before ++ (index, record) :: after →
    (((new schema).observeEach before).observe index record).1 = .error e →
      (((new schema).observeEach before).observe index record).2 = (new schema).observeEach before

/-- The widths are those of the accepted records alone. -/
def SameWidths (schema : Schema) (calls : List (Nat × PartyRecord)) : Prop :=
  ((new schema).observeEach calls).finish =
    ((new schema).observeEach ((new schema).accepted calls)).finish

/-- What is taken in of a rejected record is never longer than what was seen before it under the
same name. -/
def NothingLonger (schema : Schema) (calls : List (Nat × PartyRecord)) : Prop :=
  ∀ before index record after, calls = before ++ (index, record) :: after →
    ¬Accepted schema [] record → ∀ leaf ∈ takenOf schema record, ∀ n,
      leaf.measure? schema = some n →
        ∃ m, ((new schema).observeEach before).lengths.get? leaf.name = some m ∧ n ≤ m

/-- What is taken in of the rejected records fits the widths of the accepted ones. -/
def NothingWider (schema : Schema) (calls : List (Nat × PartyRecord)) : Prop :=
  ∃ w, ((new schema).observeEach ((new schema).accepted calls)).finish = .ok w ∧
    ∀ call ∈ calls, ¬Accepted schema [] call.2 → ∀ leaf ∈ takenOf schema call.2, ∀ n,
      leaf.measure? schema = some n → ∃ blocks, w.blocks? leaf.name = some blocks ∧ n ≤ blocks * 16

theorem unchanged_iff : Unchanged schema calls ↔ NothingLonger schema calls := by
  have hschema : ∀ before, ((new schema).observeEach before).schema = schema :=
    observeEach_schema (new schema)
  constructor
  · intro h before index record after hcalls hrejected
    have hstate := h before index record after
    rw [← hschema before] at hrejected
    obtain ⟨e, he⟩ := exists_observe_error_iff.mpr hrejected
    have hsame := (observe_snd_eq_self_iff hrejected).mp (hstate e hcalls he)
    rwa [hschema before] at hsame
  · intro h before index record after e hcalls he
    have hrejected := exists_observe_error_iff.mp ⟨e, he⟩
    refine (observe_snd_eq_self_iff hrejected).mpr ?_
    rw [hschema before] at hrejected ⊢
    exact h before index record after hcalls hrejected

theorem sameWidths_iff : SameWidths schema calls ↔
    (new schema).accepted calls = [] ∨ NothingWider schema calls := by
  rw [SameWidths, NothingWider]
  by_cases hne : (new schema).accepted calls = []
  · rw [finish_observeEach_of_nil hne, hne]
    simp [observeEach, finish, new]
  have hne' : (new schema).accepted ((new schema).accepted calls) ≠ [] := by
    obtain ⟨call, hcall⟩ := List.exists_mem_of_ne_nil _ hne
    refine List.ne_nil_of_mem (mem_accepted_iff.mpr ⟨hcall, (mem_accepted_iff.mp hcall).2⟩)
  rw [finish_observeEach hne, finish_observeEach hne', or_iff_right hne, Except.ok.injEq,
    widthsOf_eq_iff]
  have hsubset : ∀ name, lengthsUnder (Leaf.measure? schema) name
        (taken schema ((new schema).accepted calls)) ⊆
      lengthsUnder (Leaf.measure? schema) name (taken schema calls) := by
    intro name n hn
    obtain ⟨call, hcall, hleaf⟩ := mem_lengthsUnder_taken.mp hn
    exact mem_lengthsUnder_taken.mpr ⟨call, (mem_accepted_iff.mp hcall).1, hleaf⟩
  simp only [max?_map_eq_iff_of_subset Block.count_mono (hsubset _), Except.ok.injEq,
    exists_eq_left', blocks?_widthsOf]
  constructor
  · intro h call hcall _ leaf hleaf n hn
    obtain ⟨blocks, hblocks, hle⟩ :=
      h leaf.name n (mem_lengthsUnder_taken.mpr ⟨call, hcall, leaf, hleaf, rfl, hn⟩)
    exact ⟨blocks, hblocks, Block.count_le_iff.mp hle⟩
  · intro h name n hn
    obtain ⟨call, hcall, leaf, hleaf, rfl, hlength⟩ := mem_lengthsUnder_taken.mp hn
    by_cases haccepted : Accepted schema [] call.2
    · -- What an accepted record shows is among the lengths of the accepted ones.
      have hcall' : call ∈ (new schema).accepted calls := mem_accepted_iff.mpr ⟨hcall, haccepted⟩
      obtain ⟨m, hmax, -, hle⟩ :=
        exists_max?_ge (mem_lengthsUnder_taken.mpr ⟨call, hcall', leaf, hleaf, rfl, hlength⟩)
      exact ⟨Block.count m, by rw [hmax, Option.map_some], Block.count_mono hle⟩
    · obtain ⟨blocks, hblocks, hle⟩ := h call hcall haccepted leaf hleaf n hlength
      exact ⟨blocks, hblocks, Block.count_le_iff.mpr hle⟩

/-- Records that a profiler rejects are not counted. They leave it as it was exactly if nothing that
is taken in of them is longer than what was seen before, and they leave the widths as they are
exactly if none is accepted or nothing that is taken in of them is wider than these. -/
theorem rejected_trace (schema : Schema) (calls : List (Nat × PartyRecord)) :
    ((new schema).observeEach calls).records = ((new schema).accepted calls).length ∧
    (Unchanged schema calls ↔ NothingLonger schema calls) ∧
    (SameWidths schema calls ↔
      (new schema).accepted calls = [] ∨ NothingWider schema calls) := by
  refine ⟨?_, unchanged_iff, sameWidths_iff⟩
  rw [observeEach_eq]
  exact Nat.zero_add _

/-- A record that is rejected for its second column widens the first. -/
theorem rejected_note_widens :
    let seen : Nat × PartyRecord := (0, [("note", .leaf "00 00")])
    let bad : PartyRecord :=
      [("note", .leaf "000000000000000000 000000000000000000"), ("seal", .leaf "hello")]
    ¬Unchanged receiptSchema [seen, (1, bad)] ∧ ¬SameWidths receiptSchema [seen, (1, bad)] := by
  intro seen bad
  constructor
  · intro h
    have herror : (((new receiptSchema).observeEach [seen]).observe 1 bad).1 =
      .error (.field 1 "seal" (.invalidShare .noSpace)) := by decide +kernel
    have hstate := h [seen] 1 bad [] _ rfl herror
    exact absurd (congrArg Profiler.lengths hstate) (by decide +kernel)
  · intro h
    have hcolumns := congrArg (fun result => result.toOption.map Widths.columns) h
    exact absurd hcolumns (by decide +kernel)

end Profiler

end TriShare
