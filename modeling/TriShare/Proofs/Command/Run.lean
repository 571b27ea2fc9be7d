import TriShare.Proofs.Command.Outputs
/-!
What a run of the program leaves behind. Outputs are written in turn, each of them a step that says
what has changed (`Store.wrote_of_write`), and the steps are put together one after the other
(`Store.Wrote.cons`). A run either writes all that its command computes, or up to an output that
the file system refuses, or nothing is changed at all.
-/

namespace TriShare

variable {s s₁ s' : Store} {o : Output} {outputs : List Output} {p : Position}

/-! ### What is put where nothing was -/

/-- What an output puts at a position: its file, or a directory on the way to its own. -/
inductive Output.Puts (s : Store) (o : Output) (p : Position) : Entry → Prop
  | file {n : Nat} (h : s.walk o.path (Path.steps o.path) = .ok p) : Puts s o p (.file n)
  | directory {directory : String} {names : List String} (hdirectory : o.directory = some directory)
    (hnames : names <+: Path.names directory) (h : s.walk directory names = .ok p) :
    Puts s o p .directory

theorem Output.Puts.extend {e : Entry} (hputs : o.Puts s p e) (h : s.Extends s')
    (hp : s.find? p = some e) : o.Puts s' p e := by
  have hp' := h.find? p e hp
  cases hputs with
  | file hwalk => exact .file (h.walk (by simp [hp']) hwalk)
  | directory hdirectory hnames hwalk =>
    exact .directory hdirectory hnames (h.walk (by simp [hp']) hwalk)

namespace Store

/-- What making the directory of an output changes. -/
structure Prepared (s s' : Store) (o : Output) : Prop where
  kept : s.Extends s'
  content : ∀ n, s'.content n = s.content n
  added : ∀ p e, s.find? p = none → s'.find? p = some e → e = .directory ∧ o.Puts s' p e

theorem prepared_of_prepare (h : o.prepare s = (.ok (), s')) : s.Prepared s' o := by
  unfold Output.prepare at h
  cases hdirectory : o.directory with
  | none =>
    simp only [hdirectory, Prod.mk.injEq, true_and] at h
    subst h
    exact ⟨.refl s, fun _ => rfl, fun p e hfree hp => by cases hfree.symm.trans hp⟩
  | some directory =>
    cases hmake : s.makeDirectory directory with
    | mk outcome made =>
      simp only [hdirectory, hmake, Prod.map_apply, id_eq, Prod.mk.injEq] at h
      obtain ⟨houtcome, rfl⟩ := h
      cases outcome with
      | error cause => cases houtcome
      | ok _ =>
        have hmade := made_of_makeDirectory hmake
        refine ⟨hmade.kept, hmade.content, fun p e hfree hp => ?_⟩
        obtain ⟨rfl, names, hnames, hwalk⟩ := hmade.added p e hfree hp
        exact ⟨rfl, .directory hdirectory hnames hwalk⟩

theorem LinkFree.prepare (hs : s.LinkFree) (o : Output) : (o.prepare s).2.LinkFree := by
  unfold Output.prepare
  split
  · exact hs
  · exact hs.makeDirectory _

/-! ### What is written -/

/-- Outputs have been written. The path of each of them leads, past all links, to a sink or to a
file that has its bytes, unless a later one went to the same file. Nothing else has changed, but for
the directories on the way to the outputs. -/
structure Wrote (s s' : Store) (outputs : List Output) : Prop where
  kept : s.Extends s'
  linkFree : s.LinkFree → s'.LinkFree
  written : ∀ before o after, outputs = before ++ o :: after →
    s'.LeadsTo o.path .sink ∨ ∃ n, s'.LeadsTo o.path (.file n) ∧
      ((∀ o' ∈ after, ¬s'.LeadsTo o'.path (.file n)) → s'.content n = o.content.toUTF8)
  unchanged : ∀ n < s.contents.size, (∀ o ∈ outputs, ¬s'.LeadsTo o.path (.file n)) →
    s'.content n = s.content n
  added : ∀ p e, s.find? p = none → s'.find? p = some e → ∃ o ∈ outputs, o.Puts s' p e

namespace Wrote

theorem nil (s : Store) : s.Wrote s [] where
  kept := .refl s
  linkFree := id
  written before o after h := by simp at h
  unchanged n _ _ := rfl
  added p e hfree hp := by cases hfree.symm.trans hp

/-- One output after another. -/
theorem cons (h : s.Wrote s₁ [o]) (h' : s₁.Wrote s' outputs) : s.Wrote s' (o :: outputs) where
  kept := h.kept.trans h'.kept
  linkFree hs := h'.linkFree (h.linkFree hs)
  written before o' after heq := by
    rcases List.cons_eq_append_iff.mp heq with ⟨rfl, hrest⟩ | ⟨before, rfl, hrest⟩
    · obtain ⟨rfl, rfl⟩ := List.cons.inj hrest
      rcases h.written [] _ [] rfl with hsink | ⟨n, hfile, hcontent⟩
      · exact .inl (h'.kept.leadsTo (by simp) hsink)
      · refine .inr ⟨n, h'.kept.leadsTo (by simp) hfile, fun hothers => ?_⟩
        rw [h'.unchanged n hfile.lt_size hothers, hcontent (by simp)]
    · exact h'.written before o' after hrest
  unchanged n hn hothers := by
    obtain ⟨ho, hrest⟩ := List.forall_mem_cons.mp hothers
    have hfirst : ¬s₁.LeadsTo o.path (.file n) := mt (h'.kept.leadsTo (by simp)) ho
    rw [h'.unchanged n (hn.trans_le h.kept.size_le) hrest,
      h.unchanged n hn (List.forall_mem_singleton.mpr hfirst)]
  added p e hfree hp := by
    rcases h'.kept.find?_cases hp with hfirst | hfirst
    · obtain ⟨o', ho', hputs⟩ := h.added p e hfree hfirst
      obtain rfl := List.mem_singleton.mp ho'
      exact ⟨o', List.mem_cons_self, hputs.extend h'.kept hfirst⟩
    · obtain ⟨o', ho', hputs⟩ := h'.added p e hfirst hp
      exact ⟨o', List.mem_cons_of_mem _ ho', hputs⟩

/-- A file to which no output was written is read as before. -/
theorem read_eq (h : s.Wrote s' outputs) {path : String} {n : Nat}
    (hfile : s.LeadsTo path (.file n)) (hothers : ∀ o ∈ outputs, ¬s'.LeadsTo o.path (.file n)) :
    s'.read path = s.read path := by
  rw [read_of_leadsTo hfile, read_of_leadsTo (h.kept.leadsTo (by simp) hfile),
    h.unchanged n hfile.lt_size hothers]

/-- Without links each output is read back from its own file. -/
theorem read_output (h : s.Wrote s' outputs) (hs : s.LinkFree)
    (hplaces : outputs.Pairwise fun o o' => position o.path ≠ position o'.path)
    (ho : o ∈ outputs) : s'.LeadsTo o.path .sink ∨ s'.read o.path = .ok o.content := by
  obtain ⟨before, after, rfl⟩ := List.append_of_mem ho
  refine (h.written before o after rfl).imp_right ?_
  rintro ⟨n, hfile, hcontent⟩
  have hs' := h.linkFree hs
  have hafter := (List.pairwise_cons.mp (List.pairwise_append.mp hplaces).2.1).1
  rw [read_of_leadsTo hfile, hcontent, textOf_toUTF8]
  intro o' ho' hfile'
  exact hafter o' ho' (hs'.single _ _ n (hs'.find?_position hfile) (hs'.find?_position hfile'))

end Wrote

/-- Making the directory of an output and writing its file. -/
theorem wrote_of_write (hprepare : o.prepare s = (.ok (), s₁))
    (hwrite : s₁.write o.path o.content = .ok s') : s.Wrote s' [o] := by
  have hprepared := prepared_of_prepare hprepare
  obtain ⟨p, hwalk, hwritten⟩ := writtenAt_of_write hwrite
  have hnoLink : ∀ target, s'.find? p ≠ some (.link target) := by
    rcases hwritten.find?_eq with hp | ⟨n, hp, -⟩ <;> simp [hp]
  have hwalk' := hwritten.kept.walk hnoLink hwalk
  constructor
  case kept => exact hprepared.kept.trans hwritten.kept
  case linkFree =>
    intro hs
    have hs₁ := hs.prepare o
    rw [hprepare] at hs₁
    exact hwritten.linkFree hs₁
  case written =>
    intro before o' after heq
    obtain ⟨rfl, ho⟩ | ⟨before, rfl, ho⟩ := List.cons_eq_append_iff.mp heq
    · obtain ⟨rfl, rfl⟩ := List.cons.inj ho
      rcases hwritten.find?_eq with hp | ⟨n, hp, hcontent⟩
      · exact .inl ⟨p, hwalk', hp⟩
      · exact .inr ⟨n, ⟨p, hwalk', hp⟩, fun _ => hcontent⟩
    · simp at ho
  case unchanged =>
    intro n hn hother
    have hne : s'.find? p ≠ some (.file n) := fun hp =>
      hother o (List.mem_singleton_self o) ⟨p, hwalk', hp⟩
    rw [hwritten.content_eq (hn.trans_le hprepared.kept.size_le) hne, hprepared.content]
  case added =>
    intro q e hfree hq
    refine ⟨o, List.mem_singleton_self o, ?_⟩
    rcases hwritten.kept.find?_cases hq with hmade | hmade
    · exact (hprepared.added q e hfree hmade).2.extend hwritten.kept hmade
    · obtain ⟨rfl, rfl⟩ := hwritten.eq_of_find? hmade hq
      exact .file hwalk'

/-! ### Runs -/

/-- An output is refused: its directory cannot be made, or its file cannot be written after that. -/
inductive Refuses (s : Store) (o : Output) : Failure → Prop
  | creating {directory : String} {cause : FileError} {s₁ : Store}
    (hdirectory : o.directory = some directory)
    (h : s.makeDirectory directory = (.error cause, s₁)) : Refuses s o (.creating directory cause)
  | writing {cause : FileError} {s₁ : Store} (hprepare : o.prepare s = (.ok (), s₁))
    (h : s₁.write o.path o.content = .error cause) : Refuses s o (.writing o.path cause)

/-- Some outputs have been written, and the next one is refused. -/
def StopsAt (s : Store) (outputs : List Output) (e : Failure) : Prop :=
  ∃ done o rest t, outputs = done ++ o :: rest ∧ s.Wrote t done ∧ t.Refuses o e

theorem refuses_of_prepare {e : Failure} (h : o.prepare s = (.error e, s₁)) : s.Refuses o e := by
  unfold Output.prepare at h
  cases hdirectory : o.directory with
  | none => simp [hdirectory] at h
  | some directory =>
    cases hmake : s.makeDirectory directory with
    | mk outcome made =>
      simp only [hdirectory, hmake, Prod.map_apply, Prod.mk.injEq] at h
      cases outcome with
      | error cause =>
        cases h.1
        exact .creating hdirectory hmake
      | ok _ => cases h.1

/-- Outputs are all written, or up to one that is refused. -/
theorem writeOutputs_cases : ∀ (outputs : List Output) (s : Store),
    (∃ s', writeOutputs s outputs = (.ok (), s') ∧ s.Wrote s' outputs) ∨
      ∃ e s', writeOutputs s outputs = (.error e, s') ∧ s.StopsAt outputs e
  | [], s => .inl ⟨s, rfl, .nil s⟩
  | o :: outputs, s => by
    unfold writeOutputs
    cases hprepare : o.prepare s with
    | mk outcome s₁ =>
      cases outcome with
      | error e =>
        exact .inr ⟨e, s₁, rfl, [], o, outputs, s, rfl, .nil s, refuses_of_prepare hprepare⟩
      | ok _ =>
        cases hwrite : s₁.write o.path o.content with
        | error cause =>
          exact .inr ⟨_, s₁, by simp only [hwrite], [], o, outputs, s, rfl, .nil s,
            .writing hprepare hwrite⟩
        | ok s₂ =>
          have hfirst := wrote_of_write hprepare hwrite
          simp only [hwrite]
          rcases writeOutputs_cases outputs s₂ with
            ⟨s', hrest, hwrote⟩ | ⟨e, s', hrest, done, o', rest, t, rfl, hdone, hrefused⟩
          · exact .inl ⟨s', hrest, hfirst.cons hwrote⟩
          · exact .inr ⟨e, s', hrest, o :: done, o', rest, t, rfl, hfirst.cons hdone, hrefused⟩

end Store

/-- Failures of a run that come from the file system not taking what is written. -/
def Outcome.IsOfWriting : Outcome → Prop
  | .failure e => e.IsOfWriting
  | _ => False

/-- A run ends in one of three ways. Its command computes outputs from the files as they are, and
all of them are written and nothing else is changed; or the file system does not take one of them;
or there is nothing to write, because of the arguments or of what the files hold, and then the run
is no success and all files are left as they are. A file to which none of the outputs was written is
read as before; and where there are no links to begin with, each output is read from its own file,
unless that is a sink. -/
theorem runProgram_writes (settings : Settings) (args : List String) (s : Store) :
    (∃ i outputs, Args.parse args = .ok i ∧ i.Computes settings s.read outputs ∧
      ((runProgram settings args s).1 = .success ∧ s.Wrote (runProgram settings args s).2 outputs ∧
          (∀ path n, s.LeadsTo path (.file n) →
            (∀ o ∈ outputs, ¬(runProgram settings args s).2.LeadsTo o.path (.file n)) →
              (runProgram settings args s).2.read path = s.read path) ∧
          (s.LinkFree →
            outputs.Pairwise (fun o o' => Store.position o.path ≠ Store.position o'.path) ∧
            ∀ o ∈ outputs, (runProgram settings args s).2.LeadsTo o.path .sink ∨
              (runProgram settings args s).2.read o.path = .ok o.content) ∨
        ∃ e, (runProgram settings args s).1 = .failure e ∧ s.StopsAt outputs e)) ∨
    ((runProgram settings args s).2 = s ∧ (runProgram settings args s).1 ≠ .success ∧
      ¬(runProgram settings args s).1.IsOfWriting ∧
        ¬∃ i outputs, Args.parse args = .ok i ∧ i.Computes settings s.read outputs) := by
  unfold runProgram
  cases hargs : Args.parse args with
  | error stop =>
    right
    refine ⟨rfl, ?_, ?_, ?_⟩
    · cases stop <;> simp [Args.Stop.outcome]
    · cases stop <;> exact id
    · rintro ⟨i, outputs, hi, -⟩
      cases hi
  | ok i =>
    have hsettles := i.outputs_settles settings s.read
    cases houtputs : i.outputs settings s.read with
    | error e =>
      obtain ⟨hreason, hnone⟩ := hsettles.error e houtputs
      right
      simp only [Invocation.run, houtputs]
      refine ⟨trivial, by simp, hreason, ?_⟩
      rintro ⟨i', outputs, hi, hcomputes⟩
      cases hi
      exact hnone outputs hcomputes
    | ok outputs =>
      have hcomputes := hsettles.ok outputs houtputs
      left
      refine ⟨i, outputs, rfl, hcomputes, ?_⟩
      simp only [Invocation.run, houtputs]
      rcases Store.writeOutputs_cases outputs s with
        ⟨s', hwrite, hwrote⟩ | ⟨e, s', hwrite, hstops⟩
      · simp only [hwrite]
        refine .inl ⟨trivial, hwrote, fun path n => hwrote.read_eq, fun hs => ?_⟩
        exact ⟨hcomputes.distinct, fun o => hwrote.read_output hs hcomputes.distinct⟩
      · simp only [hwrite]
        exact .inr ⟨e, rfl, hstops⟩

end TriShare
