import Mathlib.Data.List.Forall2
import TriShare.Command.Run
import TriShare.Proofs.Command.Path
import TriShare.Proofs.Command.Store
import TriShare.Proofs.Table.HandedOver
/-!
What a command works out before it writes anything. `Invocation.Computes` says what the outputs are
in terms of what the files hold; a command that computes nothing fails, for a reason that is no
failure to write (`Invocation.outputs_settles`).
-/

namespace TriShare

/-! ### What is read -/

/-- The file at a path is read as something. -/
def ReadAs {α : Type} (reads : Reads) (decode? : String → Option α) (path : String) (a : α) :
    Prop :=
  ∃ text, reads path = .ok text ∧ decode? text = some a

/-- The configuration for a command: the one in the file that is named, or the default. -/
def ConfiguredAs (reads : Reads) : Option String → Config → Prop
  | none, c => c = Config.default
  | some path, c => ReadAs reads Config.parse? path c

/-! ### What is written -/

namespace Output

/-- The file with a party's view, in the directory of the party. -/
structure IsView (o : Output) (outDir stem name : String) (view : PartyTable) : Prop where
  directory : o.directory = some (Path.join outDir name)
  path : o.path = Path.join (Path.join outDir name) (stem ++ "_" ++ name ++ ".json")
  content : PartyTable.read? o.content = some view

/-- The file with widths, which are read from it as far as they can be counted in 64 bits. -/
structure IsWidths (o : Output) (path : String) (w : Widths) : Prop where
  directory : o.directory = none
  path : o.path = path
  content : (∀ e ∈ w.columns.entries, e.2 < UInt64.size) → Widths.read? o.content = some w

/-- The file with rows, an array of texts with the digits of their blocks. -/
structure IsRows (o : Output) (path : String) (rows : List (List Block)) : Prop where
  directory : o.directory = none
  path : o.path = path
  content : ∃ texts, (Json.read? o.content).bind Json.strings? = some texts ∧
    List.Forall₂ (fun row text => Hex.decode text = .ok (row.flatMap Block.bytes)) rows texts

end Output

/-- What a command writes under a schema: the three views of a table, the widths that a profiler
finds in all tables, shown to it in order, or the rows of a table. -/
inductive Command.Computes (settings : Settings) (reads : Reads) (schema : Schema) :
    Command → List Output → Prop
  | share {input outDir stem : String} {workers : Option Nat} {table : List Record}
    {views : Triple PartyTable} {o₁ o₂ o₃ : Output} (hstem : Path.stem? input = some stem)
    (htable : ReadAs reads Table.read? input table)
    (hviews : shareTableParallel schema table (workers.getD settings.workers) settings.tapes =
      .ok views)
    (h₁ : o₁.IsView outDir stem "p1" views.p1) (h₂ : o₂.IsView outDir stem "p2" views.p2)
    (h₃ : o₃.IsView outDir stem "p3" views.p3) :
    Computes settings reads schema (.share input outDir workers) [o₁, o₂, o₃]
  | profile {output : String} {paths : List String} {tables : List PartyTable} {p : Profiler}
    {w : Widths} {o : Output} (htables : List.Forall₂ (ReadAs reads PartyTable.read?) paths tables)
    (hrun : Profiler.Run (.new schema) (tables.map .table) p) (hwidths : p.finish = .ok w)
    (h : o.IsWidths output w) : Computes settings reads schema (.profile output paths) [o]
  | pad {widths input output : String} {w : Widths} {table : PartyTable} {rows : List (List Block)}
    {o : Output} (hwidths : ReadAs reads Widths.read? widths w)
    (htable : ReadAs reads PartyTable.read? input table)
    (hrows : padTable schema w table = .ok rows) (h : o.IsRows output rows) :
    Computes settings reads schema (.pad widths input output) [o]

/-- What a command with its configuration writes. -/
def Invocation.Computes (i : Invocation) (settings : Settings) (reads : Reads)
    (outputs : List Output) : Prop :=
  ∃ c schema, ConfiguredAs reads i.config c ∧ Schema.ofConfig c = .ok schema ∧
    i.command.Computes settings reads schema outputs

/-! ### Results and conditions -/

/-- Failures of the file system to take what is written. -/
def Failure.IsOfWriting : Failure → Prop
  | .creating _ _ => True
  | .writing _ _ => True
  | _ => False

/-- A result meets a condition. Where nothing meets it, the result is a failure for a reason other
than that of writing. -/
structure Settles {α : Type} (result : Except Failure α) (P : α → Prop) : Prop where
  ok : ∀ a, result = .ok a → P a
  error : ∀ e, result = .error e → ¬e.IsOfWriting ∧ ∀ a, ¬P a

/-- A result is the only thing that meets a condition. -/
structure Decides {α : Type} (result : Except Failure α) (P : α → Prop) : Prop
    extends Settles result P where
  unique : ∀ a b, P a → P b → a = b

variable {settings : Settings} {reads : Reads} {schema : Schema} {outputs : List Output}

section Conditions

variable {α β : Type} {P : α → Prop} {result : Except Failure α}

theorem Settles.of_ok {a : α} (h : P a) : Settles (.ok a) P where
  ok b hb := Except.ok.inj hb ▸ h
  error e he := by cases he

theorem Settles.of_error {e : Failure} (he : ¬e.IsOfWriting) (h : ∀ a, ¬P a) :
    Settles (.error e) P where
  ok a ha := by cases ha
  error e' h' := Except.error.inj h' ▸ ⟨he, h⟩

theorem Settles.congr {Q : α → Prop} (h : Settles result P) (hPQ : ∀ a, P a ↔ Q a) :
    Settles result Q where
  ok a ha := (hPQ a).mp (h.ok a ha)
  error e he := ⟨(h.error e he).1, fun a ha => (h.error e he).2 a ((hPQ a).mpr ha)⟩

theorem Decides.of_ok {a : α} (h : ∀ b, P b ↔ b = a) : Decides (.ok a) P where
  toSettles := .of_ok ((h a).mpr rfl)
  unique b b' hb hb' := ((h b).mp hb).trans ((h b').mp hb').symm

theorem Decides.of_error {e : Failure} (he : ¬e.IsOfWriting) (h : ∀ a, ¬P a) :
    Decides (.error e) P where
  toSettles := .of_error he h
  unique a _ ha := absurd ha (h a)

theorem Decides.congr {Q : α → Prop} (h : Decides result P) (hPQ : ∀ a, P a ↔ Q a) :
    Decides result Q where
  toSettles := h.toSettles.congr hPQ
  unique a b ha hb := h.unique a b ((hPQ a).mpr ha) ((hPQ b).mpr hb)

/-- A result that fails with another one, and is settled for each value of it. -/
theorem Settles.bind (h : Decides result P) {next : Except Failure β} {Q : α → β → Prop}
    (herror : ∀ e, result = .error e → next = .error e)
    (hok : ∀ a, result = .ok a → Settles next (Q a)) : Settles next fun b => ∃ a, P a ∧ Q a b := by
  cases hresult : result with
  | error e =>
    rw [herror e hresult]
    refine .of_error (h.error e hresult).1 ?_
    rintro b ⟨a, ha, -⟩
    exact (h.error e hresult).2 a ha
  | ok a =>
    have ha := h.ok a hresult
    refine (hok a hresult).congr fun b => ?_
    constructor
    · intro hb
      exact ⟨a, ha, hb⟩
    · rintro ⟨a', ha', hb⟩
      exact h.unique a a' ha ha' ▸ hb

theorem Decides.bind (h : Decides result P) {next : Except Failure β} {Q : α → β → Prop}
    (herror : ∀ e, result = .error e → next = .error e)
    (hok : ∀ a, result = .ok a → Decides next (Q a)) : Decides next fun b => ∃ a, P a ∧ Q a b where
  toSettles := .bind h herror fun a ha => (hok a ha).toSettles
  unique := by
    rintro b b' ⟨a, ha, hb⟩ ⟨a', ha', hb'⟩
    obtain rfl := h.unique a a' ha ha'
    cases hresult : result with
    | error e => exact absurd ha ((h.error e hresult).2 a)
    | ok a₀ =>
      obtain rfl := h.unique a a₀ ha (h.ok a₀ hresult)
      exact (hok a hresult).unique b b' hb hb'

end Conditions

/-! ### The contents of files -/

theorem isView_partyOutput {table : List Record} {views : Triple PartyTable}
    (h : SharedAs schema table views) {text : String} (htext : Table.read? text = some table)
    (outDir stem : String) (p : Party) :
    (partyOutput outDir stem views p).IsView outDir stem p.name (views.get p) where
  directory := rfl
  path := rfl
  content := h.read?_render htext p

theorem isWidths_render (output : String) (w : Widths) :
    Output.IsWidths ⟨none, output, w.toJson.render⟩ output w where
  directory := rfl
  path := rfl
  content := Widths.read?_render_iff.mpr

/-- A row has the digits of all its bytes. -/
theorem rowText_eq (row : List Block) : rowText row = Hex.encode (row.flatMap Block.bytes) := by
  induction row with
  | nil => rfl
  | cons b row ih =>
    rw [rowText, List.map_cons, String.join_cons, ← rowText, ih, Block.hex, Hex.encode, Hex.encode,
      Hex.encode, ← String.ofList_append, ← List.flatMap_append, List.flatMap_cons]

theorem isRows_render (output : String) (rows : List (List Block)) : Output.IsRows
    ⟨none, output, (Json.array (rows.map fun r => .string (rowText r))).render⟩ output rows where
  directory := rfl
  path := rfl
  content := by
    have hplain : (Json.array (rows.map fun r => .string (rowText r))).Plain :=
      .array (List.forall_mem_map.mpr fun r _ => .string _)
    have hdepth : (Json.array (rows.map fun r => .string (rowText r))).depth ≤ Json.maxDepth := by
      refine le_trans (Nat.succ_le_succ (Json.depthItems_le_iff (n := 0).mpr ?_)) (by decide)
      exact List.forall_mem_map.mpr fun r _ => by simp [Json.depth]
    refine ⟨rows.map rowText, ?_, ?_⟩
    · rw [Json.read?_render hplain hdepth, Option.bind_some, Json.strings?,
        option_mapM_eq_some_iff, List.forall₂_map_left_iff, List.forall₂_map_right_iff,
        List.forall₂_same]
      exact fun _ _ => rfl
    · rw [List.forall₂_map_right_iff, List.forall₂_same]
      intro row _
      rw [rowText_eq, Hex.decode_encode]

/-! ### Reading and working out -/

theorem readDocument_decides {α : Type} (decode? : String → Option α) (path : String) :
    Decides (readDocument reads decode? path) (ReadAs reads decode? path) := by
  unfold readDocument ReadAs
  split
  · next hread => exact .of_error id (by simp [hread])
  · next hread => exact .of_error id (by simp [hread])
  · next text hread =>
    split
    · next hdecode => exact .of_error id (by simp [hread, hdecode])
    · next a hdecode => exact .of_ok (by simp [hread, hdecode, eq_comm])

theorem loadSchema_decides (config : Option String) : Decides (loadSchema reads config)
    fun schema => ∃ c, ConfiguredAs reads config c ∧ Schema.ofConfig c = .ok schema := by
  have hschema : ∀ c, Decides ((Schema.ofConfig c).mapError fun fault =>
      Failure.library (.invalidConfig fault)) fun schema => Schema.ofConfig c = .ok schema := by
    intro c
    cases Schema.ofConfig c with
    | error fault =>
      refine .of_error id fun schema h => ?_
      cases h
    | ok schema =>
      refine .of_ok fun schema' => ?_
      rw [Except.ok.injEq, eq_comm]
  cases config with
  | none =>
    refine (hschema Config.default).congr fun schema => ?_
    simp [ConfiguredAs]
  | some path =>
    unfold loadSchema ConfiguredAs ReadAs
    dsimp only
    split
    · next hread => exact .of_error id (by simp [hread])
    · next text hread =>
      split
      · next hparse => exact .of_error id (by simp [hread, hparse])
      · next c hparse => exact (hschema c).congr (by simp [hread, hparse])

theorem profileTables_decides : ∀ (paths : List String) (p : Profiler),
    Decides (profileTables reads p paths) fun q => ∃ tables,
      List.Forall₂ (ReadAs reads PartyTable.read?) paths tables ∧
        Profiler.Run p (tables.map .table) q
  | [], p => by
    refine .of_ok fun q => ?_
    constructor
    · rintro ⟨tables, htables, hrun⟩
      cases htables
      cases hrun
      rfl
    · rintro rfl
      exact ⟨[], .nil, .nil⟩
  | path :: paths, p => by
    have hread : Decides (readDocument reads PartyTable.read? path) _ := readDocument_decides _ _
    unfold profileTables
    refine (hread.bind (Q := fun table q => ∃ p' tables, p.observeTable table = (.ok (), p') ∧
      List.Forall₂ (ReadAs reads PartyTable.read?) paths tables ∧
        Profiler.Run p' (tables.map .table) q) ?_ ?_).congr fun q => ?_
    · intro e he
      simp only [he]
    · intro table htable
      simp only [htable]
      cases hobserve : p.observeTable table with
      | mk outcome p' =>
        cases outcome with
        | error e => exact .of_error id (by simp)
        | ok _ => exact (profileTables_decides paths p').congr (by simp)
    · constructor
      · rintro ⟨table, htable, p', tables, hobserve, htables, hrun⟩
        exact ⟨table :: tables, .cons htable htables, .cons hobserve hrun⟩
      · rintro ⟨tables, htables, hrun⟩
        cases htables with
        | cons htable htables =>
          cases hrun with
          | cons hobserve hrun => exact ⟨_, htable, _, _, hobserve, htables, hrun⟩

theorem shareOutputs_settles (input outDir : String) (workers : Option Nat) :
    Settles (shareOutputs schema reads settings.tapes (workers.getD settings.workers) input outDir)
      ((Command.share input outDir workers).Computes settings reads schema) := by
  have hread : Decides (readDocument reads Table.read? input) _ := readDocument_decides _ _
  unfold shareOutputs
  cases hstem : Path.stem? input with
  | none =>
    refine .of_error id fun outputs h => ?_
    cases h with
    | share hstem' => cases hstem.symm.trans hstem'
  | some stem =>
    refine (Settles.bind hread (Q := fun table outputs => ∃ views o₁ o₂ o₃,
      shareTableParallel schema table (workers.getD settings.workers) settings.tapes = .ok views ∧
        Output.IsView o₁ outDir stem "p1" views.p1 ∧ Output.IsView o₂ outDir stem "p2" views.p2 ∧
          Output.IsView o₃ outDir stem "p3" views.p3 ∧ outputs = [o₁, o₂, o₃]) ?_ ?_).congr
        fun outputs => ?_
    · intro e he
      simp only [he]
    · intro table htable
      obtain ⟨text, -, htext⟩ := hread.ok table htable
      simp only [htable]
      cases hviews : shareTableParallel schema table (workers.getD settings.workers)
          settings.tapes with
      | error e => exact .of_error id (by simp)
      | ok views =>
        have hview := isView_partyOutput (.inr ⟨_, _, hviews⟩) htext outDir stem
        exact .of_ok ⟨views, _, _, _, rfl, hview .first, hview .second, hview .third, rfl⟩
    · constructor
      · rintro ⟨table, htable, views, o₁, o₂, o₃, hviews, h₁, h₂, h₃, rfl⟩
        exact .share hstem htable hviews h₁ h₂ h₃
      · intro h
        cases h with
        | share hstem' htable hviews h₁ h₂ h₃ =>
          cases hstem.symm.trans hstem'
          exact ⟨_, htable, _, _, _, _, hviews, h₁, h₂, h₃, rfl⟩

theorem profileOutputs_settles (output : String) (paths : List String) :
    Settles (profileOutputs schema reads output paths)
      ((Command.profile output paths).Computes settings reads schema) := by
  have hrun : Decides (profileTables reads (.new schema) paths) _ := profileTables_decides _ _
  unfold profileOutputs
  refine (Settles.bind hrun (Q := fun p outputs => ∃ w o, p.finish = .ok w ∧
    Output.IsWidths o output w ∧ outputs = [o]) ?_ ?_).congr fun outputs => ?_
  · intro e he
    simp only [he]
  · intro p hp
    simp only [hp]
    cases hfinish : p.finish with
    | error e => exact .of_error id (by simp)
    | ok w => exact .of_ok ⟨w, _, rfl, isWidths_render output w, rfl⟩
  · constructor
    · rintro ⟨p, ⟨tables, htables, hrun⟩, w, o, hw, ho, rfl⟩
      exact .profile htables hrun hw ho
    · intro h
      cases h with
      | profile htables hrun hw ho => exact ⟨_, ⟨_, htables, hrun⟩, _, _, hw, ho, rfl⟩

theorem padOutputs_settles (widths input output : String) :
    Settles (padOutputs schema reads widths input output)
      ((Command.pad widths input output).Computes settings reads schema) := by
  have hwidths : Decides (readDocument reads Widths.read? widths) _ := readDocument_decides _ _
  have htable : Decides (readDocument reads PartyTable.read? input) _ := readDocument_decides _ _
  unfold padOutputs
  refine (Settles.bind hwidths (Q := fun w outputs => ∃ table,
    ReadAs reads PartyTable.read? input table ∧ ∃ rows o, padTable schema w table = .ok rows ∧
      Output.IsRows o output rows ∧ outputs = [o]) ?_ ?_).congr fun outputs => ?_
  · intro e he
    simp only [he]
  · intro w hw
    simp only [hw]
    refine .bind htable ?_ ?_
    · intro e he
      simp only [he]
    · intro table htable
      simp only [htable]
      rcases hrows : padTable schema w table with (e | cause) | rows
      · exact .of_error id (by simp)
      · exact .of_error id (by simp)
      · exact .of_ok ⟨rows, _, rfl, isRows_render output rows, rfl⟩
  · constructor
    · rintro ⟨w, hw, table, htable, rows, o, hrows, ho, rfl⟩
      exact .pad hw htable hrows ho
    · intro h
      cases h with
      | pad hw htable hrows ho => exact ⟨_, hw, _, htable, _, _, hrows, ho, rfl⟩

/-- The outputs of a command are what it computes. -/
theorem Invocation.outputs_settles (i : Invocation) (settings : Settings) (reads : Reads) :
    Settles (i.outputs settings reads) (i.Computes settings reads) := by
  have hschema : Decides (loadSchema reads i.config) _ := loadSchema_decides _
  unfold outputs
  refine (Settles.bind hschema (Q := fun schema outputs =>
    i.command.Computes settings reads schema outputs) ?_ ?_).congr fun outputs => ?_
  · intro e he
    simp only [he]
  · intro schema hs
    simp only [hs]
    cases i.command with
    | share input outDir workers => exact shareOutputs_settles input outDir workers
    | profile output paths => exact profileOutputs_settles output paths
    | pad widths input output => exact padOutputs_settles widths input output
  · constructor
    · rintro ⟨schema, ⟨c, hc, hs⟩, h⟩
      exact ⟨c, schema, hc, hs, h⟩
    · rintro ⟨c, schema, hc, hs, h⟩
      exact ⟨schema, ⟨c, hc, hs⟩, h⟩

/-! ### Where outputs stand -/

/-- A path that ends with a name leads to a position with this name. -/
theorem Store.exists_position_join {name : String} (hname : name ∉ ["", ".", ".."])
    (hslash : '/' ∉ name.toList) (path : String) :
    ∃ base, position (Path.join path name) = base ++ [name] := by
  simp only [List.mem_cons, List.not_mem_nil, or_false, not_or] at hname
  obtain ⟨hempty, hdot, hdots⟩ := hname
  refine ⟨(Path.names path).foldl next (start home (Path.join path name)), ?_⟩
  rw [position, Path.steps_join hempty hslash, List.foldl_append, List.foldl_cons, List.foldl_nil,
    next, if_neg hdot, if_neg hdots]

/-- Files with different names stand in different places. -/
theorem Store.position_join_ne {path path' name name' : String} (hne : name ≠ name')
    (hname : name ∉ ["", ".", ".."]) (hslash : '/' ∉ name.toList)
    (hname' : name' ∉ ["", ".", ".."]) (hslash' : '/' ∉ name'.toList) :
    position (Path.join path name) ≠ position (Path.join path' name') := by
  obtain ⟨base, hbase⟩ := exists_position_join hname hslash path
  obtain ⟨base', hbase'⟩ := exists_position_join hname' hslash' path'
  rw [hbase, hbase']
  intro heq
  exact hne (List.cons.inj (List.append_inj_right' heq rfl)).1

/-- The files of different parties stand in different places. -/
theorem Output.IsView.position_ne {outDir stem name name' : String} {view view' : PartyTable}
    {o o' : Output} (h : o.IsView outDir stem name view) (h' : o'.IsView outDir stem name' view')
    (hstem : '/' ∉ stem.toList) (hslash : '/' ∉ name.toList) (hslash' : '/' ∉ name'.toList)
    (hne : name ≠ name') : Store.position o.path ≠ Store.position o'.path := by
  have hchars : ∀ name, (stem ++ "_" ++ name ++ ".json").toList =
      stem.toList ++ '_' :: (name.toList ++ ".json".toList) := by
    intro name
    simp only [String.toList_append, List.append_assoc]
    rfl
  have hspecial : ∀ name, stem ++ "_" ++ name ++ ".json" ∉ ["", ".", ".."] := by
    intro name hmem
    -- The underscore tells the name from the three that are not those of files.
    have hnone : ∀ special ∈ ["", ".", ".."], '_' ∉ special.toList := by decide
    exact hnone _ hmem (by simp [hchars])
  have hplain : ∀ name, '/' ∉ name.toList → '/' ∉ (stem ++ "_" ++ name ++ ".json").toList := by
    intro name hname
    simp [hchars, hstem, hname]
  have hfile : stem ++ "_" ++ name ++ ".json" ≠ stem ++ "_" ++ name' ++ ".json" := by
    intro heq
    have hcut := (hchars name).symm.trans ((congrArg String.toList heq).trans (hchars name'))
    have hrest := (List.cons.inj (List.append_cancel_left hcut)).2
    exact hne (String.toList_inj.mp (List.append_cancel_right hrest))
  rw [h.path, h'.path]
  exact Store.position_join_ne hfile (hspecial name) (hplain name hslash) (hspecial name')
    (hplain name' hslash')

/-- The outputs of a command have different positions. -/
theorem Invocation.Computes.distinct {i : Invocation} (h : i.Computes settings reads outputs) :
    outputs.Pairwise fun o o' => Store.position o.path ≠ Store.position o'.path := by
  obtain ⟨c, schema, -, -, hcomputes⟩ := h
  generalize i.command = command at hcomputes
  cases hcomputes with
  | @share input outDir stem workers table views o₁ o₂ o₃ hstem _ _ h₁ h₂ h₃ =>
    have hslash := Path.slash_notMem_of_stem? hstem
    have h₁₂ := h₁.position_ne h₂ hslash (by decide) (by decide) (by decide)
    have h₁₃ := h₁.position_ne h₃ hslash (by decide) (by decide) (by decide)
    have h₂₃ := h₂.position_ne h₃ hslash (by decide) (by decide) (by decide)
    simp [h₁₂, h₁₃, h₂₃]
  | profile => exact List.pairwise_singleton _ _
  | pad => exact List.pairwise_singleton _ _

end TriShare
