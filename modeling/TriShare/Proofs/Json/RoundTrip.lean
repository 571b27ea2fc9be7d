import TriShare.Proofs.Json.Atoms
import TriShare.Proofs.Json.Depth
/-!
Documents are read as they were written, if they are not nested too deep and their numbers are
integers of 64 bits. From any open containers the text of a value leads to the state in which the
value is put where it belongs (`Reader.passes_renderAt`); the induction is on the value, together
with the items and fields that follow the first of a container.
-/

namespace TriShare.Json

/-- The documents whose numbers are all integers of 64 bits. -/
inductive Plain : Json → Prop
  | null : Plain .null
  | bool (b : Bool) : Plain (.bool b)
  | integer {n : Int} (h : Number.isExact n = true) : Plain (.number (.integer n))
  | string (s : String) : Plain (.string s)
  | array {items : List Json} (h : ∀ v ∈ items, Plain v) : Plain (.array items)
  | object {fields : List (String × Json)} (h : ∀ e ∈ fields, Plain e.2) : Plain (.object fields)

/-- The names of an object's own fields. -/
def names : Json → List String
  | .object fields => fields.map Prod.fst
  | _ => []

namespace Reader

variable {known : String → Bool} {stack : List Frame} {s s' : State} {v : Json}

/-! ### Open containers -/

theorem skips_items (h : skips known stack = false) (done : List Json) :
    skips known (.items done :: stack) = false := by
  cases stack with
  | nil => rfl
  | cons frame stack => exact h

theorem skips_field {name : String} (h : skips known stack = false)
    (hname : stack = [] → known name = true) (done : List (String × Json)) :
    skips known (.field done name :: stack) = false := by
  cases stack with
  | nil => simp [skips, hname rfl]
  | cons frame stack => exact h

/-- A field is kept if its object is not the outermost one or its name is known. -/
theorem complete_field {name : String} (hname : stack = [] → known name = true)
    (done : List (String × Json)) (v : Json) :
    complete known v (.field done name :: stack) = ⟨stack, .afterField ((name, v) :: done)⟩ := by
  cases stack with
  | nil => rw [complete, hname rfl, if_pos rfl]
  | cons frame stack => rfl

theorem mayOpen_of_lt (h : stack.length < maxDepth) : mayOpen known stack = true := by
  simp [mayOpen, h]

/-! ### Lines -/

theorem step_space {c : Char} (hc : isSpace c = true)
    (hbetween : step known s c = stepBetween known s c) : step known s c = some s := by
  rw [hbetween, stepBetween, if_pos hc]

theorem run_spaces (hbetween : step known s ' ' = stepBetween known s ' ') :
    ∀ n, run known s (List.replicate n ' ') = some s
  | 0 => rfl
  | n + 1 => by
    rw [List.replicate_succ, run_cons_of (step_space rfl hbetween), run_spaces hbetween n]

theorem toList_newLine (depth : Nat) :
    (newLine depth).toList = '\n' :: List.replicate (2 * depth) ' ' := by
  simp [newLine]

/-- Between the parts of a container a line may begin. -/
theorem run_newLine (hbetween : ∀ c, step known s c = stepBetween known s c) (depth : Nat) :
    run known s (newLine depth).toList = some s := by
  rw [toList_newLine, run_cons_of (step_space rfl (hbetween _)), run_spaces (hbetween _)]

/-! ### Characters of containers -/

theorem toList_renderItems (depth : Nat) (v : Json) (vs : List Json) :
    (renderItems depth (v :: vs)).toList = ',' :: (((newLine depth).toList ++
      (renderAt depth v).toList) ++ (renderItems depth vs).toList) := by
  simp [renderItems]

theorem toList_renderFields (depth : Nat) (name : String) (v : Json)
    (fields : List (String × Json)) :
    (renderFields depth ((name, v) :: fields)).toList = ',' :: (((newLine depth).toList ++
      ((quote name).toList ++ ':' :: ' ' :: (renderAt depth v).toList)) ++
        (renderFields depth fields).toList) := by
  simp [renderFields]

theorem toList_renderAt_array (depth : Nat) (v : Json) (vs : List Json) :
    (renderAt depth (.array (v :: vs))).toList = '[' :: (((newLine (depth + 1)).toList ++
      (renderAt (depth + 1) v).toList) ++ ((renderItems (depth + 1) vs).toList ++
        ((newLine depth).toList ++ [']']))) := by
  simp [renderAt]

theorem toList_renderAt_object (depth : Nat) (name : String) (v : Json)
    (fields : List (String × Json)) :
    (renderAt depth (.object ((name, v) :: fields))).toList = '\x7b' ::
      (((newLine (depth + 1)).toList ++
        ((quote name).toList ++ ':' :: ' ' :: (renderAt (depth + 1) v).toList)) ++
          ((renderFields (depth + 1) fields).toList ++ ((newLine depth).toList ++ ['\x7d']))) := by
  simp [renderAt]

/-- What begins with a character that does not belong to a number breaks off a number. -/
theorem breaks_of_cons {c : Char} {cs : List Char} (hc : isNumberChar c = false)
    (after : List Char) : Breaks (c :: cs ++ after) :=
  ⟨c, cs ++ after, rfl, hc⟩

theorem breaks_newLine (depth : Nat) (cs after : List Char) :
    Breaks ((newLine depth).toList ++ cs ++ after) := by
  rw [toList_newLine]
  exact breaks_of_cons rfl after

theorem breaks_renderItems (depth : Nat) (vs : List Json) (after : List Char) (h : Breaks after) :
    Breaks ((renderItems depth vs).toList ++ after) := by
  cases vs with
  | nil => simpa [renderItems] using h
  | cons v vs =>
    rw [toList_renderItems]
    exact breaks_of_cons rfl after

theorem breaks_renderFields (depth : Nat) (fields : List (String × Json)) (after : List Char)
    (h : Breaks after) : Breaks ((renderFields depth fields).toList ++ after) := by
  cases fields with
  | nil => simpa [renderFields] using h
  | cons e fields =>
    rw [toList_renderFields]
    exact breaks_of_cons rfl after

/-! ### Items and fields -/

/-- An item on a line of its own. -/
theorem passes_item {done : List Json} {text : List Char} {mayClose : Bool}
    (hv : Passes known ⟨.items done :: stack, .value mayClose⟩ text
      (complete known v (.items done :: stack))) (depth : Nat) :
    Passes known ⟨.items done :: stack, .value mayClose⟩ ((newLine depth).toList ++ text)
      ⟨stack, .afterItem (v :: done)⟩ := by
  intro after hafter
  rw [List.append_assoc, run_append_of (run_newLine (fun _ => rfl) depth), hv after hafter]
  rfl

/-- A field on a line of its own. -/
theorem passes_field {done : List (String × Json)} {name : String} {text : List Char}
    (hname : stack = [] → known name = true)
    (hv : Passes known ⟨.field done name :: stack, .value false⟩ text
      (complete known v (.field done name :: stack))) (depth : Nat) (mayClose : Bool) :
    Passes known ⟨stack, .name done mayClose⟩
      ((newLine depth).toList ++ ((quote name).toList ++ ':' :: ' ' :: text))
      ⟨stack, .afterField ((name, v) :: done)⟩ := by
  have hcolon : step known ⟨stack, .colon done name⟩ ':' =
      some ⟨.field done name :: stack, .value false⟩ := rfl
  have hspace : step known ⟨.field done name :: stack, .value false⟩ ' ' =
      some ⟨.field done name :: stack, .value false⟩ := rfl
  intro after hafter
  rw [List.append_assoc, run_append_of (run_newLine (fun _ => rfl) depth), List.append_assoc,
    run_append_of (run_quote_name name done mayClose), (hv.cons hspace).cons hcolon after hafter,
    complete_field hname]

/-- The last line of a container. -/
theorem passes_close {c : Char} (hbetween : ∀ c, step known s c = stepBetween known s c)
    (h : step known s c = some s') (depth : Nat) :
    Passes known s ((newLine depth).toList ++ [c]) s' := by
  refine passes_of_run ?_
  rw [run_append_of (run_newLine hbetween depth), run_cons_of h, run_nil]

/-! ### Values -/

mutual

/-- The text of a value leads to the state in which the value is complete. -/
theorem passes_renderAt : ∀ {v : Json} {stack : List Frame} (depth : Nat) (mayClose : Bool),
    v.Plain → stack.length + v.depth ≤ maxDepth → skips known stack = false →
    (stack = [] → ∀ name ∈ v.names, known name = true) →
    Passes known ⟨stack, .value mayClose⟩ (renderAt depth v).toList (complete known v stack)
  | .null, stack, _, _, _, _, _, _ => by
    rw [renderAt]
    exact passes_of_run rfl
  | .bool true, stack, _, _, _, _, _, _ => by
    rw [renderAt]
    exact passes_of_run rfl
  | .bool false, stack, _, _, _, _, _, _ => by
    rw [renderAt]
    exact passes_of_run rfl
  | .number (.integer n), stack, _, mayClose, hplain, _, hskips, _ => by
    cases hplain with
    | integer hexact =>
      rw [renderAt, Number.text, String.toList_ofList]
      exact passes_integer hexact hskips mayClose
  | .number (.double x), _, _, _, hplain, _, _, _ => nomatch hplain
  | .string s, stack, _, mayClose, _, _, _, _ => by
    rw [renderAt]
    exact passes_of_run (run_quote_value s mayClose)
  | .array [], stack, _, mayClose, _, hdepth, _, _ => by
    rw [depth, depthItems] at hdepth
    have hopen : step known ⟨stack, .value mayClose⟩ '[' = some ⟨.items [] :: stack, .value true⟩ :=
      if_pos (mayOpen_of_lt hdepth)
    rw [renderAt]
    exact passes_of_run ((run_cons_of hopen [']']).trans rfl)
  | .array (v :: vs), stack, level, mayClose, hplain, hdepth, hskips, _ => by
    cases hplain with
    | array hplain =>
      obtain ⟨hv, hvs⟩ := List.forall_mem_cons.mp hplain
      rw [depth, depthItems] at hdepth
      have hroom : stack.length < maxDepth := by omega
      have hopen : step known ⟨stack, .value mayClose⟩ '[' =
          some ⟨.items [] :: stack, .value true⟩ := if_pos (mayOpen_of_lt hroom)
      have hclose : step known ⟨stack, .afterItem (vs.reverse ++ [v])⟩ ']' =
          some (complete known (.array (v :: vs)) stack) := by
        have hitems : (vs.reverse ++ [v]).reverse = v :: vs := by simp
        exact hitems ▸ rfl
      have hinner : (Frame.items [] :: stack).length + v.depth ≤ maxDepth := by
        rw [List.length_cons]
        omega
      have hfirst := passes_item (passes_renderAt (level + 1) true hv hinner
        (skips_items hskips []) (fun h => nomatch h)) (level + 1)
      have hrest := passes_renderItems (level + 1) [v] hvs (by omega) hskips
      have hlast := passes_close (fun _ => rfl) hclose level
      rw [toList_renderAt_array]
      refine (hfirst.append (hrest.append hlast fun after _ => breaks_newLine level _ after)
        fun after _ => ?_).cons hopen
      rw [List.append_assoc]
      exact breaks_renderItems _ _ _ (breaks_newLine level _ after)
  | .object [], stack, _, mayClose, _, hdepth, _, _ => by
    rw [depth, depthFields] at hdepth
    have hopen : step known ⟨stack, .value mayClose⟩ '{' = some ⟨stack, .name [] true⟩ :=
      if_pos (mayOpen_of_lt hdepth)
    rw [renderAt]
    exact passes_of_run ((run_cons_of hopen ['}']).trans rfl)
  | .object ((name, v) :: fields), stack, level, mayClose, hplain, hdepth, hskips, hnames => by
    cases hplain with
    | object hplain =>
      obtain ⟨hv, hfields⟩ := List.forall_mem_cons.mp hplain
      rw [depth, depthFields] at hdepth
      have hroom : stack.length < maxDepth := by omega
      have hopen : step known ⟨stack, .value mayClose⟩ '\x7b' = some ⟨stack, .name [] true⟩ :=
        if_pos (mayOpen_of_lt hroom)
      have hclose : step known ⟨stack, .afterField (fields.reverse ++ [(name, v)])⟩ '\x7d' =
          some (complete known (.object ((name, v) :: fields)) stack) := by
        have hfields : (fields.reverse ++ [(name, v)]).reverse = (name, v) :: fields := by simp
        exact hfields ▸ rfl
      have hinner : (Frame.field [] name :: stack).length + v.depth ≤ maxDepth := by
        rw [List.length_cons]
        omega
      have hname : stack = [] → known name = true := fun h =>
        hnames h name List.mem_cons_self
      have hothers : stack = [] → ∀ e ∈ fields, known e.1 = true := fun h e he =>
        hnames h e.1 (List.mem_cons_of_mem _ (List.mem_map_of_mem he))
      have hfirst := passes_field hname (passes_renderAt (level + 1) false hv hinner
        (skips_field hskips hname []) (fun h => nomatch h)) (level + 1) true
      have hrest := passes_renderFields (level + 1) [(name, v)] hfields (by omega) hskips hothers
      have hlast := passes_close (fun _ => rfl) hclose level
      rw [toList_renderAt_object]
      refine (hfirst.append (hrest.append hlast fun after _ => breaks_newLine level _ after)
        fun after _ => ?_).cons hopen
      rw [List.append_assoc]
      exact breaks_renderFields _ _ _ (breaks_newLine level _ after)

/-- The items after the first are added to those that were read. -/
theorem passes_renderItems : ∀ {vs : List Json} {stack : List Frame} (depth : Nat)
    (done : List Json), (∀ v ∈ vs, v.Plain) → stack.length + (depthItems vs + 1) ≤ maxDepth →
    skips known stack = false →
    Passes known ⟨stack, .afterItem done⟩ (renderItems depth vs).toList
      ⟨stack, .afterItem (vs.reverse ++ done)⟩
  | [], stack, _, done, _, _, _ => by
    rw [renderItems]
    exact passes_of_run rfl
  | v :: vs, stack, level, done, hplain, hdepth, hskips => by
    obtain ⟨hv, hvs⟩ := List.forall_mem_cons.mp hplain
    rw [depthItems] at hdepth
    have hcomma : step known ⟨stack, .afterItem done⟩ ',' =
        some ⟨.items done :: stack, .value false⟩ := rfl
    have hinner : (Frame.items done :: stack).length + v.depth ≤ maxDepth := by
      rw [List.length_cons]
      omega
    have hfirst := passes_item (passes_renderAt level false hv hinner
      (skips_items hskips done) (fun h => nomatch h)) level
    have hrest := passes_renderItems level (v :: done) hvs (by omega) hskips
    rw [toList_renderItems, List.reverse_cons, List.append_assoc vs.reverse, List.singleton_append]
    exact (hfirst.append hrest (breaks_renderItems level vs)).cons hcomma

/-- The fields after the first are added to those that were read. -/
theorem passes_renderFields : ∀ {fields : List (String × Json)} {stack : List Frame} (depth : Nat)
    (done : List (String × Json)), (∀ e ∈ fields, e.2.Plain) →
    stack.length + (depthFields fields + 1) ≤ maxDepth → skips known stack = false →
    (stack = [] → ∀ e ∈ fields, known e.1 = true) →
    Passes known ⟨stack, .afterField done⟩ (renderFields depth fields).toList
      ⟨stack, .afterField (fields.reverse ++ done)⟩
  | [], stack, _, done, _, _, _, _ => by
    rw [renderFields]
    exact passes_of_run rfl
  | (name, v) :: fields, stack, level, done, hplain, hdepth, hskips, hnames => by
    obtain ⟨hv, hfields⟩ := List.forall_mem_cons.mp hplain
    rw [depthFields] at hdepth
    have hcomma : step known ⟨stack, .afterField done⟩ ',' = some ⟨stack, .name done false⟩ := rfl
    have hinner : (Frame.field done name :: stack).length + v.depth ≤ maxDepth := by
      rw [List.length_cons]
      omega
    have hname : stack = [] → known name = true := fun h =>
      hnames h (name, v) List.mem_cons_self
    have hothers : stack = [] → ∀ e ∈ fields, known e.1 = true := fun h e he =>
      hnames h e (List.mem_cons_of_mem _ he)
    have hfirst := passes_field hname (passes_renderAt level false hv hinner
      (skips_field hskips hname done) (fun h => nomatch h)) level false
    have hrest := passes_renderFields level ((name, v) :: done) hfields (by omega) hskips hothers
    rw [toList_renderFields, List.reverse_cons, List.append_assoc fields.reverse,
      List.singleton_append]
    exact (hfirst.append hrest (breaks_renderFields level fields)).cons hcomma

end

/-- A document is complete at the end of the text if white space there would find it complete. Two
kinds of it are looked at since the rest of a word could be one of them. -/
theorem finish_of_step (hspace : step known s ' ' = some ⟨[], .finished v⟩)
    (hline : step known s '\n' = some ⟨[], .finished v⟩) : finish known s = some v := by
  obtain ⟨stack, mode⟩ := s
  cases mode with
  | finished w =>
    cases hspace
    rfl
  | number literal =>
    have hend : (endNumber known stack literal).bind (stepBetween known · ' ') =
        some ⟨[], .finished v⟩ := hspace
    obtain ⟨s', hs', hbetween⟩ := Option.bind_eq_some_iff.mp hend
    cases hbetween
    simp only [finish, hs']
  | text role units escape =>
    cases escape with
    | outside => cases hspace
    | begun => cases hspace
    | digits missing value => cases hspace
  | word rest meaning =>
    cases rest with
    | nil => cases hspace
    | cons w rest =>
      by_cases hw : w = ' '
      · subst hw
        cases hline
      · have hne : (' ' != w) = true := by simpa using fun h => hw h.symm
        have hnone : step known ⟨stack, .word (w :: rest) meaning⟩ ' ' = none := if_pos hne
        rw [hnone] at hspace
        cases hspace
  | _ => cases hspace

end Reader

/-- A document is read as it was written. -/
theorem readKnown?_render {known : String → Bool} {v : Json} (hplain : v.Plain)
    (hdepth : v.depth ≤ maxDepth) (hnames : ∀ name ∈ v.names, known name = true) :
    readKnown? known v.render = some v := by
  have hroom : ([] : List Reader.Frame).length + v.depth ≤ maxDepth := by simpa using hdepth
  have hpasses := Reader.passes_renderAt 0 false hplain hroom rfl fun _ => hnames
  have hfollowed : ∀ c, Reader.isSpace c = true → Reader.isNumberChar c = false →
      ∃ s, Reader.run known Reader.start v.render.toList = some s ∧
        Reader.step known s c = some ⟨[], .finished v⟩ := by
    intro c hspace hc
    have hread := hpasses [c] ⟨c, [], rfl, hc⟩
    have hafter : Reader.run known (Reader.complete known v []) [c] = some ⟨[], .finished v⟩ :=
      Reader.run_cons_of (Reader.step_space hspace rfl) []
    rw [hafter, Reader.run, List.foldlM_append] at hread
    obtain ⟨s, hs, hlast⟩ := Option.bind_eq_some_iff.mp hread
    rw [List.foldlM_cons] at hlast
    obtain ⟨s', hs', hnil⟩ := Option.bind_eq_some_iff.mp hlast
    cases hnil
    exact ⟨s, hs, hs'⟩
  obtain ⟨s, hs, hspace⟩ := hfollowed ' ' rfl rfl
  obtain ⟨s', hs', hline⟩ := hfollowed '\n' rfl rfl
  cases hs.symm.trans hs'
  exact Option.bind_eq_some_iff.mpr ⟨s, hs, Reader.finish_of_step hspace hline⟩

theorem read?_render {v : Json} (hplain : v.Plain) (hdepth : v.depth ≤ maxDepth) :
    read? v.render = some v :=
  readKnown?_render hplain hdepth fun _ _ => rfl

end TriShare.Json
