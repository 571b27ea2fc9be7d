import Mathlib.Algebra.Order.Ring.Nat
import Mathlib.Data.List.Basic
import TriShare.Command.Store
/-!
What the operations on files change. Nothing that stands somewhere is ever taken away or put
elsewhere (`Store.Extends`), so that a path that leads to something keeps leading to it. Making a
directory puts directories on the way to it and changes nothing else (`Store.Made`), and writing a
file changes the one file to which its path leads, or puts a new one there (`Store.WrittenAt`).
Where there are no links, the names of a path alone say where it leads, and none come about.
-/

namespace TriShare

namespace Store

variable {s s' : Store} {p q : Position} {path : String} {links n : Nat} {bytes : ByteArray}

/-! ### Entries -/

/-- Another entry does not change what stands elsewhere, nor the directories that are there
always. -/
theorem find?_put (p : Position) (e : Entry) (he : ∀ n, e = .file n → n < s.contents.size)
    (q : Position) : (s.put p e he).find? q =
      if p = q ∧ ¬(p = [] ∨ p = home) then some e else s.find? q := by
  by_cases hpq : p = q
  · subst hpq
    by_cases hfixed : p = [] ∨ p = home <;> simp [find?, put, hfixed]
  · simp [find?, put, hpq, Std.TreeMap.getElem?_insert]

theorem find?_put_of_free (hfree : s.find? p = none) {e : Entry}
    (he : ∀ n, e = .file n → n < s.contents.size) (q : Position) :
    (s.put p e he).find? q = if p = q then some e else s.find? q := by
  have hfixed : ¬(p = [] ∨ p = home) := fun hfixed => by simp [find?, hfixed] at hfree
  rw [find?_put]
  simp only [hfixed, not_false_eq_true, and_true]

theorem find?_addDirectory (h : s.find? p = none) (q : Position) :
    (s.addDirectory p).find? q = if p = q then some .directory else s.find? q :=
  find?_put_of_free h _ q

theorem find?_create (h : s.find? p = none) (bytes : ByteArray) (q : Position) :
    (s.create p bytes).find? q = if p = q then some (.file s.contents.size) else s.find? q :=
  find?_put_of_free (s := s.push bytes) h _ q

theorem lt_size_of_find? (h : s.find? p = some (.file n)) : n < s.contents.size := by
  rw [find?] at h
  split at h
  · cases h
  · exact s.valid p n h

theorem content_create (p : Position) (bytes : ByteArray) (n : Nat) :
    (s.create p bytes).content n = if n = s.contents.size then bytes else s.content n := by
  simp only [content, create, put, push, Array.getD_eq_getD_getElem?, Array.getElem?_push]
  split <;> rfl

theorem content_overwrite (hn : n < s.contents.size) (bytes : ByteArray) (m : Nat) :
    (s.overwrite n bytes).content m = if m = n then bytes else s.content m := by
  simp only [content, overwrite, Array.getD_eq_getD_getElem?, Array.getElem?_setIfInBounds, hn,
    if_true, eq_comm (a := n)]
  split <;> rfl

/-! ### What stays -/

/-- Whatever stands somewhere still stands there. -/
structure Extends (s s' : Store) : Prop where
  find? : ∀ p e, s.find? p = some e → s'.find? p = some e
  size_le : s.contents.size ≤ s'.contents.size

theorem Extends.refl (s : Store) : s.Extends s := ⟨fun _ _ h => h, le_rfl⟩

theorem Extends.trans {s₁ : Store} (h : s.Extends s₁) (h' : s₁.Extends s') : s.Extends s' :=
  ⟨fun p e hp => h'.find? p e (h.find? p e hp), h.size_le.trans h'.size_le⟩

/-- What stands somewhere stood there before, or nothing did. -/
theorem Extends.find?_cases (h : s.Extends s') {e : Entry} (hp : s'.find? p = some e) :
    s.find? p = some e ∨ s.find? p = none := by
  cases hold : s.find? p with
  | none => exact .inr rfl
  | some e' =>
    have hkept := h.find? p e' hold
    exact .inl (hkept.symm.trans hp)

theorem extends_addDirectory (h : s.find? p = none) : s.Extends (s.addDirectory p) where
  find? q e hq := by
    rw [find?_addDirectory h, if_neg, hq]
    rintro rfl
    cases h.symm.trans hq
  size_le := le_rfl

theorem extends_create (h : s.find? p = none) (bytes : ByteArray) :
    s.Extends (s.create p bytes) where
  find? q e hq := by
    rw [find?_create h, if_neg, hq]
    rintro rfl
    cases h.symm.trans hq
  size_le := by simp [create, put, push]

theorem extends_overwrite (n : Nat) (bytes : ByteArray) : s.Extends (s.overwrite n bytes) where
  find? _ _ hq := hq
  size_le := by simp [overwrite]

/-! ### Ways -/

theorem enter_eq_ok_iff : s.enter p = .ok q ↔ s.find? p = some .directory ∧ q = p := by
  unfold enter
  split
  · next hnone => simp [hnone]
  · next hdirectory => simp [hdirectory, eq_comm]
  · next hother => simp_all

theorem step_eq_ok_iff {name : String} :
    s.step p name = .ok q ↔ s.find? p = some .directory ∧ along p name = .ok q := by
  constructor
  · intro h
    unfold step at h
    cases hp : s.enter p with
    | error e =>
      rw [hp] at h
      cases h
    | ok p' =>
      obtain ⟨hdirectory, rfl⟩ := enter_eq_ok_iff.mp hp
      rw [hp] at h
      exact ⟨hdirectory, h⟩
  · rintro ⟨hdirectory, h⟩
    have henter : s.enter p = .ok p := enter_eq_ok_iff.mpr ⟨hdirectory, rfl⟩
    rw [step, henter]
    exact h

theorem Extends.step (h : s.Extends s') {name : String} (hstep : s.step p name = .ok q) :
    s'.step p name = .ok q := by
  obtain ⟨hdirectory, halong⟩ := step_eq_ok_iff.mp hstep
  exact step_eq_ok_iff.mpr ⟨h.find? p _ hdirectory, halong⟩

/-- A way along names that ends at a position, with no more links on it than are given. -/
inductive Way (s : Store) : Nat → Position → List String → Position → Prop
  | nil {links : Nat} {p : Position} : Way s links p [] p
  | along {links : Nat} {p p' q : Position} {name : String} {rest : List String}
    (hstep : s.step p name = .ok p') (hno : ∀ target, s.find? p' ≠ some (.link target))
    (h : Way s links p' rest q) : Way s links p (name :: rest) q
  | link {links : Nat} {p p' q : Position} {name target : String} {rest : List String}
    (hstep : s.step p name = .ok p') (hlink : s.find? p' = some (.link target))
    (h : Way s links (start p target) (Path.steps target ++ rest) q) :
    Way s (links + 1) p (name :: rest) q

theorem way_of_follow {names : List String} (h : s.follow links p names = .ok q) :
    s.Way links p names q := by
  induction links, p, names using follow.induct s with
  | case1 links p =>
    rw [follow, Except.ok.injEq] at h
    exact h ▸ .nil
  | case2 links p name rest e hstep => simp [follow, hstep] at h
  | case3 p name rest p' hstep target hlink => simp [follow, hstep, hlink] at h
  | case4 p name rest p' hstep target hlink links ih =>
    simp only [follow, hstep, hlink] at h
    exact .link hstep hlink (ih h)
  | case5 links p name rest p' hstep hno ih =>
    rw [follow] at h
    simp only [hstep] at h
    exact .along hstep hno (ih h)

theorem Way.follow_eq {names : List String} (h : s.Way links p names q) :
    s.follow links p names = .ok q := by
  induction h with
  | nil => rw [follow]
  | along hstep hno _ ih =>
    rw [follow]
    simp only [hstep]
    exact ih
  | link hstep hlink _ ih =>
    rw [follow]
    simp only [hstep, hlink, ih]

/-- A path is walked only if it is neither empty nor too long. -/
theorem walk_eq_ok_iff {names : List String} : s.walk path names = .ok q ↔
    path ≠ "" ∧ ¬maxPathSize < path.utf8ByteSize ∧ s.Way maxLinks (start home path) names q := by
  have hway : s.follow maxLinks (start home path) names = .ok q ↔
    s.Way maxLinks (start home path) names q := ⟨way_of_follow, Way.follow_eq⟩
  unfold walk
  by_cases hempty : path = ""
  · simp [hempty]
  · by_cases hlong : maxPathSize < path.utf8ByteSize
    · simp [hempty, hlong]
    · simp [hempty, hlong, hway]

/-- A way that goes on past a position starts in a directory. -/
theorem Way.find?_eq {name : String} {rest : List String} (h : s.Way links p (name :: rest) q) :
    s.find? p = some .directory := by
  cases h with
  | along hstep => exact (step_eq_ok_iff.mp hstep).1
  | link hstep => exact (step_eq_ok_iff.mp hstep).1

/-- A way stays as it is, if nothing but a link comes to stand at its end. -/
theorem Way.extend {names : List String} (hway : s.Way links p names q) (h : s.Extends s')
    (hq : ∀ target, s'.find? q ≠ some (.link target)) : s'.Way links p names q := by
  induction hway with
  | nil => exact .nil
  | link hstep hlink _ ih => exact .link (h.step hstep) (h.find? _ _ hlink) (ih hq)
  | @along links p p' q name rest hstep hno hrest ih =>
    refine .along (h.step hstep) ?_ (ih hq)
    cases rest with
    | nil =>
      cases hrest
      exact hq
    | cons next rest =>
      have hdirectory := h.find? _ _ hrest.find?_eq
      simp [hdirectory]

/-- A way is prolonged by a name that is no link. -/
theorem Way.concat {p' : Position} {names : List String} {name : String}
    (hway : s.Way links p names p') (hstep : s.step p' name = .ok q)
    (hq : ∀ target, s.find? q ≠ some (.link target)) : s.Way links p (names ++ [name]) q := by
  induction hway with
  | nil => exact .along hstep hq .nil
  | along hfirst hno _ ih => exact .along hfirst hno (ih hstep)
  | link hfirst hlink _ ih =>
    have hrest := ih hstep
    rw [List.append_assoc] at hrest
    exact .link hfirst hlink hrest

theorem Extends.walk (h : s.Extends s') {names : List String}
    (hq : ∀ target, s'.find? q ≠ some (.link target)) (hwalk : s.walk path names = .ok q) :
    s'.walk path names = .ok q := by
  obtain ⟨hne, hsize, hway⟩ := walk_eq_ok_iff.mp hwalk
  exact walk_eq_ok_iff.mpr ⟨hne, hsize, hway.extend h hq⟩

theorem walk_concat {p' : Position} {names : List String} {name : String}
    (hwalk : s.walk path names = .ok p') (hstep : s.step p' name = .ok q)
    (hq : ∀ target, s.find? q ≠ some (.link target)) :
    s.walk path (names ++ [name]) = .ok q := by
  obtain ⟨hne, hsize, hway⟩ := walk_eq_ok_iff.mp hwalk
  exact walk_eq_ok_iff.mpr ⟨hne, hsize, hway.concat hstep hq⟩

/-! ### Where paths lead -/

/-- A path leads to something, past all links. -/
def LeadsTo (s : Store) (path : String) (e : Entry) : Prop :=
  ∃ p, s.walk path (Path.steps path) = .ok p ∧ s.find? p = some e

theorem Extends.leadsTo (h : s.Extends s') {e : Entry} (he : ∀ target, e ≠ .link target)
    (hleads : s.LeadsTo path e) : s'.LeadsTo path e := by
  obtain ⟨p, hwalk, hp⟩ := hleads
  have hp' := h.find? p e hp
  refine ⟨p, h.walk (fun target htarget => ?_) hwalk, hp'⟩
  rw [hp', Option.some.injEq] at htarget
  exact he target htarget

theorem LeadsTo.lt_size (h : s.LeadsTo path (.file n)) : n < s.contents.size := by
  obtain ⟨p, -, hp⟩ := h
  exact lt_size_of_find? hp

/-- What is read at a path are the bytes of the file to which it leads. -/
theorem read_of_leadsTo (h : s.LeadsTo path (.file n)) : s.read path = textOf (s.content n) := by
  obtain ⟨p, hwalk, hp⟩ := h
  simp only [read, hwalk, hp]

theorem textOf_toUTF8 (text : String) : textOf text.toUTF8 = .ok text := by
  have htext : String.fromUTF8? text.toUTF8 = some text := dif_pos text.isValidUTF8
  rw [textOf, htext]

/-! ### Making directories -/

/-- What making the directory at a path changes: directories are there that were not, each of them
on the way that the path leads. -/
structure Made (s s' : Store) (path : String) : Prop where
  kept : s.Extends s'
  content : ∀ n, s'.content n = s.content n
  added : ∀ p e, s.find? p = none → s'.find? p = some e →
    e = .directory ∧ ∃ names, names <+: Path.names path ∧ s'.walk path names = .ok p

theorem Made.refl (s : Store) (path : String) : s.Made s path where
  kept := .refl s
  content _ := rfl
  added p e hfree hp := by cases hfree.symm.trans hp

/-- One more directory on the way. -/
theorem Made.cons {names : List String} (h : (s.addDirectory p).Made s' path)
    (hfree : s.find? p = none) (hnames : names <+: Path.names path)
    (hwalk : (s.addDirectory p).walk path names = .ok p) : s.Made s' path where
  kept := (extends_addDirectory hfree).trans h.kept
  content := h.content
  added q e hq hq' := by
    have hp : s'.find? p = some .directory :=
      h.kept.find? p _ (by rw [find?_addDirectory hfree, if_pos rfl])
    by_cases heq : p = q
    · subst heq
      rw [hp, Option.some.injEq] at hq'
      exact ⟨hq'.symm, names, hnames, h.kept.walk (by simp [hp]) hwalk⟩
    · exact h.added q e (by rw [find?_addDirectory hfree, if_neg heq, hq]) hq'

theorem made_of_makeEach : ∀ {rest done : List String} {s : Store} {made : Bool},
    done ++ rest = Path.names path → s.makeEach path done made rest = (.ok (), s') →
      s.Made s' path
  | [], done, s, made, _, h => by
    cases h
    exact .refl _ path
  | name :: rest, done, s, made, hnames, h => by
    have hnext : done ++ [name] ++ rest = Path.names path := by
      rw [List.append_assoc, List.singleton_append, hnames]
    unfold makeEach at h
    split at h
    · cases h
    · next p hp =>
      split at h
      · next hfree =>
        obtain ⟨p', hwalk, hstep⟩ : ∃ p', s.walk path done = .ok p' ∧ s.step p' name = .ok p := by
          cases hwalk : s.walk path done with
          | error e => simp [hwalk, Except.bind] at hp
          | ok p' => exact ⟨p', rfl, by simpa [hwalk, Except.bind] using hp⟩
        have hkept := extends_addDirectory hfree
        have hdirectory := hkept.find? _ _ (step_eq_ok_iff.mp hstep).1
        have hnew : (s.addDirectory p).find? p = some .directory := by
          rw [find?_addDirectory hfree, if_pos rfl]
        refine (made_of_makeEach hnext h).cons hfree ⟨rest, hnext⟩ ?_
        exact walk_concat (hkept.walk (by simp [hdirectory]) hwalk) (hkept.step hstep)
          (by simp [hnew])
      · split at h
        · exact made_of_makeEach hnext h
        · cases h

theorem made_of_makeDirectory (h : s.makeDirectory path = (.ok (), s')) : s.Made s' path := by
  unfold makeDirectory at h
  split at h
  · cases h
  · exact made_of_makeEach rfl h

/-! ### Writing files -/

/-- What writing bytes at a position changes. -/
inductive WrittenAt (s : Store) (p : Position) (bytes : ByteArray) : Store → Prop
  | sink (h : s.find? p = some .sink) : WrittenAt s p bytes s
  | file {n : Nat} (h : s.find? p = some (.file n)) : WrittenAt s p bytes (s.overwrite n bytes)
  | new (h : s.find? p = none) : WrittenAt s p bytes (s.create p bytes)

theorem Path.steps_of_namesFile (h : Path.namesFile path = true) :
    Path.steps path = Path.names path := by
  rw [Path.namesFile, Bool.and_eq_true, Bool.not_eq_true'] at h
  simp [Path.steps, h.1]

theorem writtenAt_of_write {content : String} (h : s.write path content = .ok s') :
    ∃ p, s.walk path (Path.steps path) = .ok p ∧ s.WrittenAt p content.toUTF8 s' := by
  unfold write at h
  split at h
  · cases h
  · next p htarget =>
    refine ⟨p, ?_, ?_⟩
    · unfold target at htarget
      split at htarget
      · next hfile => rwa [Path.steps_of_namesFile hfile]
      · split at htarget <;> cases htarget
    · split at h
      · cases h
      · next hsink =>
        cases h
        exact .sink hsink
      · next hfile =>
        cases h
        exact .file hfile
      · next hnone =>
        cases h
        exact .new hnone
      · cases h

namespace WrittenAt

theorem kept (h : s.WrittenAt p bytes s') : s.Extends s' := by
  cases h with
  | sink => exact .refl s
  | file => exact extends_overwrite _ bytes
  | new hnone => exact extends_create hnone bytes

/-- Afterwards there is a sink or a file with the bytes. -/
theorem find?_eq (h : s.WrittenAt p bytes s') : s'.find? p = some .sink ∨
    ∃ n, s'.find? p = some (.file n) ∧ s'.content n = bytes := by
  cases h with
  | sink hsink => exact .inl hsink
  | @file n hfile =>
    refine .inr ⟨n, hfile, ?_⟩
    rw [content_overwrite (lt_size_of_find? hfile), if_pos rfl]
  | new hnone =>
    refine .inr ⟨s.contents.size, ?_, ?_⟩
    · rw [find?_create hnone, if_pos rfl]
    · rw [content_create, if_pos rfl]

/-- The bytes of other files are what they were. -/
theorem content_eq (h : s.WrittenAt p bytes s') (hn : n < s.contents.size)
    (hne : s'.find? p ≠ some (.file n)) : s'.content n = s.content n := by
  cases h with
  | sink => rfl
  | @file m hfile =>
    have hm : n ≠ m := by
      rintro rfl
      exact hne hfile
    rw [content_overwrite (lt_size_of_find? hfile), if_neg hm]
  | new hnone => rw [content_create, if_neg hn.ne]

/-- Nothing comes to stand anywhere else. -/
theorem eq_of_find? (h : s.WrittenAt p bytes s') {e : Entry} (hfree : s.find? q = none)
    (hq : s'.find? q = some e) : q = p ∧ e = .file s.contents.size := by
  cases h with
  | sink => cases hfree.symm.trans hq
  | file => cases hfree.symm.trans hq
  | new hnone =>
    rw [find?_create hnone] at hq
    split at hq
    · next heq => exact ⟨heq.symm, (Option.some.inj hq).symm⟩
    · cases hfree.symm.trans hq

end WrittenAt

/-! ### Stores without links -/

/-- There is no link, and no file stands at two positions. -/
structure LinkFree (s : Store) : Prop where
  noLink : ∀ p target, s.find? p ≠ some (.link target)
  single : ∀ p q n, s.find? p = some (.file n) → s.find? q = some (.file n) → p = q

/-- Where a name leads from a position, be there anything or not. -/
def next (p : Position) (name : String) : Position :=
  if name = "." then p else if name = ".." then p.dropLast else p ++ [name]

/-- Where a path leads by its names alone. -/
def position (path : String) : Position := (Path.steps path).foldl next (start home path)

theorem along_eq {name : String} (h : along p name = .ok q) : q = next p name := by
  unfold along at h
  unfold next
  split at h
  · next hdot =>
    cases h
    rw [if_pos hdot]
  · next hdot =>
    rw [if_neg hdot]
    split at h
    · next hdots =>
      cases h
      rw [if_pos hdots]
    · next hdots =>
      rw [if_neg hdots]
      split at h
      · cases h
      · cases h
        rfl

namespace LinkFree

/-- Without links the names alone decide where a way leads. -/
theorem eq_of_way (h : s.LinkFree) {names : List String} (hway : s.Way links p names q) :
    q = names.foldl next p := by
  induction hway with
  | nil => rfl
  | along hstep _ _ ih =>
    rw [List.foldl_cons, ← along_eq (step_eq_ok_iff.mp hstep).2]
    exact ih
  | link _ hlink => exact absurd hlink (h.noLink _ _)

theorem find?_position (h : s.LinkFree) {e : Entry} (hleads : s.LeadsTo path e) :
    s.find? (position path) = some e := by
  obtain ⟨p, hwalk, hp⟩ := hleads
  obtain ⟨-, -, hway⟩ := walk_eq_ok_iff.mp hwalk
  rwa [position, ← h.eq_of_way hway]

/-- Whatever is put somewhere, there are no links if it is none, and no file that stands
elsewhere. -/
theorem put (hs : s.LinkFree) {e : Entry} (he : ∀ n, e = .file n → n < s.contents.size)
    (hlink : ∀ target, e ≠ .link target) (hfile : ∀ n q, e = .file n → s.find? q ≠ some (.file n)) :
    (s.put p e he).LinkFree where
  noLink q target hq := by
    rw [find?_put] at hq
    split at hq
    · exact hlink target (Option.some.inj hq)
    · exact hs.noLink q target hq
  single q r n hq hr := by
    rw [find?_put] at hq hr
    split at hq <;> split at hr
    · next hpq hpr => exact hpq.1.symm.trans hpr.1
    · exact absurd hr (hfile n r (Option.some.inj hq))
    · exact absurd hq (hfile n q (Option.some.inj hr))
    · exact hs.single q r n hq hr

theorem addDirectory (hs : s.LinkFree) (p : Position) : (s.addDirectory p).LinkFree :=
  hs.put _ (by simp) (by simp)

theorem create (hs : s.LinkFree) (p : Position) (bytes : ByteArray) :
    (s.create p bytes).LinkFree := by
  have hpush : (s.push bytes).LinkFree := ⟨hs.noLink, hs.single⟩
  refine hpush.put _ (by simp) fun n q hn hq => ?_
  cases hn
  exact absurd (lt_size_of_find? (s := s) hq) (lt_irrefl _)

theorem makeEach (rest done : List String) (made : Bool) (hs : s.LinkFree) :
    (s.makeEach path done made rest).2.LinkFree := by
  induction rest generalizing s done made with
  | nil => exact hs
  | cons name rest ih =>
    unfold Store.makeEach
    split
    · exact hs
    · split
      · exact ih _ _ (hs.addDirectory _)
      · split
        · exact ih _ _ hs
        · exact hs

theorem makeDirectory (hs : s.LinkFree) (path : String) :
    (s.makeDirectory path).2.LinkFree := by
  unfold Store.makeDirectory
  split
  · exact hs
  · exact hs.makeEach _ _ _

end LinkFree

theorem WrittenAt.linkFree (h : s.WrittenAt p bytes s') (hs : s.LinkFree) : s'.LinkFree := by
  cases h with
  | sink => exact hs
  | file => exact ⟨hs.noLink, hs.single⟩
  | new => exact hs.create p bytes

theorem linkFree_empty : empty.LinkFree := by
  have hbare : LinkFree ⟨∅, #[], by simp⟩ := by
    constructor <;> simp [find?]
  have hroot := List.foldlRecOn (motive := LinkFree) rootNames (fun s name => s.addDirectory [name])
    hbare fun _ hs _ _ => hs.addDirectory _
  exact hroot.put (by simp) (by simp) (by simp)

/-- Files that are put into an empty working directory have no links among them. -/
theorem linkFree_ofFiles (files : List (String × String)) : (ofFiles files).LinkFree :=
  List.foldlRecOn _ _ linkFree_empty fun _ hs _ _ => (hs.makeEach _ _ _).create _ _

end Store

end TriShare
