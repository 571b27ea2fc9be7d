import Mathlib.Order.MinMax
import TriShare.Json.Reader
/-!
How deep a document is nested. The reader keeps, in every container that is still open, only values
that leave room for the containers around them (`Reader.Shallow.step`), so that no document that is
read is deeper than the limit (`depth_of_read?`).
-/

namespace TriShare.Json

mutual

/-- How many arrays and objects deep a document is nested. -/
def depth : Json → Nat
  | .array items => depthItems items + 1
  | .object fields => depthFields fields + 1
  | _ => 0

/-- The depth of the deepest of some items. -/
def depthItems : List Json → Nat
  | [] => 0
  | v :: vs => max (depth v) (depthItems vs)

/-- The depth of the deepest of some fields. -/
def depthFields : List (String × Json) → Nat
  | [] => 0
  | (_, v) :: fields => max (depth v) (depthFields fields)

end

theorem depthItems_le_iff {items : List Json} {n : Nat} :
    depthItems items ≤ n ↔ ∀ v ∈ items, v.depth ≤ n := by
  induction items with
  | nil => simp [depthItems]
  | cons v vs ih => rw [depthItems, max_le_iff, ih, List.forall_mem_cons]

theorem depthFields_le_iff {fields : List (String × Json)} {n : Nat} :
    depthFields fields ≤ n ↔ ∀ e ∈ fields, e.2.depth ≤ n := by
  induction fields with
  | nil => simp [depthFields]
  | cons e fields ih => rw [depthFields, max_le_iff, ih, List.forall_mem_cons]

namespace Reader

/-- The contents of a container fit below containers of a number. -/
def Frame.Shallow (outer : Nat) : Frame → Prop
  | .items done => outer < maxDepth ∧ ∀ v ∈ done, v.depth + outer < maxDepth
  | .field done _ => outer < maxDepth ∧ ∀ e ∈ done, e.2.depth + outer < maxDepth

/-- The contents of all open containers fit below those around them. -/
def ShallowStack : List Frame → Prop
  | [] => True
  | frame :: stack => frame.Shallow stack.length ∧ ShallowStack stack

/-- What the mode holds fits below the open containers. -/
def Mode.Shallow (outer : Nat) : Mode → Prop
  | .name done _ => outer < maxDepth ∧ ∀ e ∈ done, e.2.depth + outer < maxDepth
  | .colon done _ => outer < maxDepth ∧ ∀ e ∈ done, e.2.depth + outer < maxDepth
  | .afterItem done => outer < maxDepth ∧ ∀ v ∈ done, v.depth + outer < maxDepth
  | .afterField done => outer < maxDepth ∧ ∀ e ∈ done, e.2.depth + outer < maxDepth
  | .text (.name done) _ _ => outer < maxDepth ∧ ∀ e ∈ done, e.2.depth + outer < maxDepth
  | .word _ meaning => meaning.depth + outer ≤ maxDepth
  | .finished v => v.depth ≤ maxDepth
  | _ => True

/-- All that a state holds fits below the open containers. -/
structure Shallow (s : State) : Prop where
  stack : ShallowStack s.stack
  mode : s.mode.Shallow s.stack.length

/-- The names that are read for a document of any kind. -/
abbrev all : String → Bool := fun _ => true

variable {stack : List Frame} {s s' : State} {c : Char}

theorem ShallowStack.length_le (h : ShallowStack stack) : stack.length ≤ maxDepth := by
  cases stack with
  | nil => exact Nat.zero_le _
  | cons frame stack =>
    obtain ⟨hframe, -⟩ := h
    cases frame with
    | items done => exact hframe.1
    | field done name => exact hframe.1

theorem skips_all (stack : List Frame) : skips all stack = false := by
  rw [skips]
  split <;> rfl

theorem mayOpen_all : mayOpen all stack = true ↔ stack.length < maxDepth := by
  simp [mayOpen, skips_all]

/-- A finished value that fits leaves a state that fits. -/
theorem shallow_complete {v : Json} (hv : v.depth + stack.length ≤ maxDepth)
    (h : ShallowStack stack) : Shallow (complete all v stack) := by
  cases stack with
  | nil => exact ⟨trivial, hv⟩
  | cons frame stack =>
    obtain ⟨hframe, hstack⟩ := h
    rw [List.length_cons] at hv
    cases frame with
    | items done =>
      refine ⟨hstack, hframe.1, List.forall_mem_cons.mpr ⟨?_, hframe.2⟩⟩
      exact hv
    | field done name =>
      have hdone : ∀ e ∈ (name, v) :: done, e.2.depth + stack.length < maxDepth :=
        List.forall_mem_cons.mpr ⟨hv, hframe.2⟩
      cases stack with
      | nil => exact ⟨hstack, hframe.1, hdone⟩
      | cons outer stack => exact ⟨hstack, hframe.1, hdone⟩

/-- A string ends as a value that has no depth, or as a name. -/
theorem shallow_endText {role : Role} {units : List Nat} {escape : Escape}
    (hstack : ShallowStack stack) (hmode : (Mode.text role units escape).Shallow stack.length)
    (h : endText all stack role units = some s) : Shallow s := by
  cases role with
  | value =>
    simp only [endText, skips_all, Bool.false_eq_true, if_false] at h
    obtain ⟨text, -, rfl⟩ := Option.map_eq_some_iff.mp h
    refine shallow_complete ?_ hstack
    simpa [depth] using hstack.length_le
  | name done =>
    simp only [endText, skips_all, Bool.false_eq_true, if_false] at h
    obtain ⟨text, -, rfl⟩ := Option.map_eq_some_iff.mp h
    exact ⟨hstack, hmode⟩

theorem shallow_stepText {role : Role} {units : List Nat} {escape : Escape}
    (hstack : ShallowStack stack) (hmode : (Mode.text role units escape).Shallow stack.length)
    (h : stepText all stack role units escape c = some s) : Shallow s := by
  have hgo : ∀ (units : List Nat) (escape : Escape), Shallow ⟨stack, .text role units escape⟩ := by
    intro units escape
    cases role with
    | value => exact ⟨hstack, trivial⟩
    | name done => exact ⟨hstack, hmode⟩
  cases escape with
  | outside =>
    rw [stepText] at h
    split at h
    · exact shallow_endText hstack hmode h
    · split at h
      · cases h
        exact hgo _ _
      · split at h
        · cases h
        · cases h
          exact hgo _ _
  | begun =>
    rw [stepText] at h
    split at h
    · cases h
      exact hgo _ _
    · obtain ⟨u, -, rfl⟩ := Option.map_eq_some_iff.mp h
      exact hgo _ _
  | digits missing value =>
    rw [stepText] at h
    obtain ⟨d, -, rfl⟩ := Option.map_eq_some_iff.mp h
    dsimp only
    split
    · exact hgo _ _
    · exact hgo _ _

theorem shallow_endNumber {literal : List Char} (hstack : ShallowStack stack)
    (h : endNumber all stack literal = some s) : Shallow s := by
  simp only [endNumber, skips_all, Bool.false_eq_true, if_false] at h
  split at h
  · cases h
  · obtain ⟨n, -, rfl⟩ := Option.map_eq_some_iff.mp h
    refine shallow_complete ?_ hstack
    simpa [depth] using hstack.length_le

theorem shallow_stepValue {mayClose : Bool} (hstack : ShallowStack stack)
    (h : stepValue all stack mayClose c = some s) : Shallow s := by
  have hword : ∀ {rest : List Char} {meaning : Json}, meaning.depth = 0 →
      Shallow ⟨stack, .word rest meaning⟩ := by
    intro rest meaning hdepth
    refine ⟨hstack, ?_⟩
    rw [Mode.Shallow, hdepth, Nat.zero_add]
    exact hstack.length_le
  unfold stepValue at h
  split at h
  · obtain ⟨hopen, heq⟩ := Option.ite_none_right_eq_some.mp h
    cases heq
    exact ⟨⟨⟨mayOpen_all.mp hopen, by simp⟩, hstack⟩, trivial⟩
  · obtain ⟨hopen, heq⟩ := Option.ite_none_right_eq_some.mp h
    cases heq
    exact ⟨hstack, mayOpen_all.mp hopen, by simp⟩
  · cases h
    exact ⟨hstack, trivial⟩
  · cases h
    exact hword (by simp [depth])
  · cases h
    exact hword (by simp [depth])
  · cases h
    exact hword (by simp [depth])
  · split at h
    · next outer =>
      cases h
      obtain ⟨hframe, houter⟩ := hstack
      have hroom : (Json.array []).depth + outer.length ≤ maxDepth := by
        rw [depth, depthItems, Nat.zero_add, Nat.add_comm]
        exact hframe.1
      exact shallow_complete hroom houter
    · cases h
  · obtain ⟨-, heq⟩ := Option.ite_none_right_eq_some.mp h
    cases heq
    exact ⟨hstack, trivial⟩

/-- A container that is closed is one deeper than what it holds. -/
theorem shallow_array {done : List Json} (hstack : ShallowStack stack)
    (hmode : (Mode.afterItem done).Shallow stack.length) :
    Shallow (complete all (.array done.reverse) stack) := by
  have hroom : stack.length + 1 ≤ maxDepth := hmode.1
  have hitems : depthItems done.reverse ≤ maxDepth - (stack.length + 1) := by
    rw [depthItems_le_iff]
    intro v hv
    have := hmode.2 v (List.mem_reverse.mp hv)
    omega
  refine shallow_complete ?_ hstack
  rw [depth]
  omega

theorem shallow_object {done : List (String × Json)} (hstack : ShallowStack stack)
    (hmode : (Mode.afterField done).Shallow stack.length) :
    Shallow (complete all (.object done.reverse) stack) := by
  have hroom : stack.length + 1 ≤ maxDepth := hmode.1
  have hfields : depthFields done.reverse ≤ maxDepth - (stack.length + 1) := by
    rw [depthFields_le_iff]
    intro e he
    have := hmode.2 e (List.mem_reverse.mp he)
    omega
  refine shallow_complete ?_ hstack
  rw [depth]
  omega

theorem shallow_stepBetween (hs : Shallow s) (h : stepBetween all s c = some s') : Shallow s' := by
  obtain ⟨stack, mode⟩ := s
  obtain ⟨hstack, hmode⟩ := hs
  rw [stepBetween] at h
  split at h
  · cases h
    exact ⟨hstack, hmode⟩
  · cases mode with
    | value mayClose => exact shallow_stepValue hstack h
    | name done mayClose =>
      simp only at h
      split at h
      · cases h
        exact ⟨hstack, hmode⟩
      · obtain ⟨-, heq⟩ := Option.ite_none_right_eq_some.mp h
        cases heq
        have hempty : (Mode.afterField []).Shallow stack.length := ⟨hmode.1, by simp⟩
        exact shallow_object hstack hempty
    | colon done name =>
      obtain ⟨-, heq⟩ := Option.ite_none_right_eq_some.mp h
      cases heq
      exact ⟨⟨hmode, hstack⟩, trivial⟩
    | afterItem done =>
      simp only at h
      split at h
      · cases h
        exact ⟨⟨hmode, hstack⟩, trivial⟩
      · obtain ⟨-, heq⟩ := Option.ite_none_right_eq_some.mp h
        cases heq
        exact shallow_array hstack hmode
    | afterField done =>
      simp only at h
      split at h
      · cases h
        exact ⟨hstack, hmode⟩
      · obtain ⟨-, heq⟩ := Option.ite_none_right_eq_some.mp h
        cases heq
        exact shallow_object hstack hmode
    | text role units escape => cases h
    | number literal => cases h
    | word rest meaning => cases h
    | finished v => cases h

/-- Every character keeps what is held within the room that is left. -/
theorem Shallow.step (hs : Shallow s) (h : step all s c = some s') : Shallow s' := by
  obtain ⟨stack, mode⟩ := s
  obtain ⟨hstack, hmode⟩ := hs
  have hbetween : stepBetween all ⟨stack, mode⟩ c = some s' → Shallow s' :=
    shallow_stepBetween ⟨hstack, hmode⟩
  unfold Reader.step at h
  cases mode with
  | text role units escape => exact shallow_stepText hstack hmode h
  | number literal =>
    simp only at h
    split at h
    · cases h
      exact ⟨hstack, trivial⟩
    · obtain ⟨next, hnext, hrest⟩ := Option.bind_eq_some_iff.mp h
      exact shallow_stepBetween (shallow_endNumber hstack hnext) hrest
  | word rest meaning =>
    cases rest with
    | nil => exact hbetween h
    | cons w rest =>
      simp only at h
      split at h
      · cases h
      · split at h
        · cases h
          exact shallow_complete hmode hstack
        · cases h
          exact ⟨hstack, hmode⟩
  | value mayClose => exact hbetween h
  | name done mayClose => exact hbetween h
  | colon done name => exact hbetween h
  | afterItem done => exact hbetween h
  | afterField done => exact hbetween h
  | finished v => exact hbetween h

theorem Shallow.foldlM : ∀ {cs : List Char} {s s' : State}, Shallow s →
    cs.foldlM (Reader.step all) s = some s' → Shallow s'
  | [], _, _, hs, h => by
    cases h
    exact hs
  | c :: cs, s, s', hs, h => by
    rw [List.foldlM_cons] at h
    obtain ⟨next, hnext, hrest⟩ := Option.bind_eq_some_iff.mp h
    exact (hs.step hnext).foldlM hrest

end Reader

/-- No document that is read is deeper than the limit. -/
theorem depth_of_read? {text : String} {v : Json} (h : read? text = some v) :
    v.depth ≤ maxDepth := by
  obtain ⟨s, hs, hfinish⟩ := Option.bind_eq_some_iff.mp h
  have hstart : Reader.Shallow Reader.start := ⟨trivial, trivial⟩
  have hshallow : Reader.Shallow s := hstart.foldlM hs
  obtain ⟨stack, mode⟩ := s
  obtain ⟨hstack, hmode⟩ := hshallow
  cases mode with
  | finished w =>
    cases hfinish
    exact hmode
  | number literal =>
    simp only [Reader.finish] at hfinish
    split at hfinish
    · next hend =>
      cases hfinish
      exact (Reader.shallow_endNumber hstack hend).mode
    · cases hfinish
  | _ => cases hfinish

end TriShare.Json
