import Mathlib.Data.List.OfFn
import Mathlib.Logic.Equiv.Fin.Basic
import TriShare.Proofs.Sharing.Source
/-!
Hiding is said of two runs that draw from their sources: the bytes of one are matched with those of
the other, one to one, so that a view of what is made comes out the same. Parts that are drawn one
after the other are matched each by itself, so what hides its parts hides the whole.
-/

namespace TriShare

/-- Some bytes by their places. -/
abbrev Segment (n : Nat) := Fin n → UInt8

namespace Source

/-- The next `n` bytes. -/
def segment (s : Source) (n : Nat) : Segment n := fun i => s.tape (s.drawn + i)

theorem ofFn_segment (s : Source) (n : Nat) : List.ofFn (s.segment n) = s.peek n := by
  refine List.ext_getElem (by simp) fun i _ _ => ?_
  simp [segment, peek]

theorem segment_add (s : Source) (m n : Nat) :
    s.segment (m + n) = Fin.append (s.segment m) ((s.skip m).segment n) := by
  funext i
  induction i using Fin.addCases with
  | left i => rw [Fin.append_left, segment, segment, Fin.val_castAdd]
  | right i =>
    rw [Fin.append_right, segment, segment, tape_skip, drawn_skip, Fin.val_natAdd, Nat.add_assoc]

end Source

namespace Segment

variable {m n : Nat}

/-- Changes the first bytes in one way and those after them in another. -/
def both (e : Segment m ≃ Segment m) (f : Segment n ≃ Segment n) :
    Segment (m + n) ≃ Segment (m + n) :=
  (Fin.appendEquiv m n).symm.trans ((e.prodCongr f).trans (Fin.appendEquiv m n))

theorem both_append (e : Segment m ≃ Segment m) (f : Segment n ≃ Segment n) (a : Segment m)
    (b : Segment n) : both e f (Fin.append a b) = Fin.append (e a) (f b) := by
  have happend : Fin.append a b = Fin.appendEquiv m n (a, b) := rfl
  rw [both, happend, Equiv.trans_apply, Equiv.symm_apply_apply]
  rfl

/-- Sources that differ by a change of both parts differ in each part by its own change. -/
theorem of_both {e : Segment m ≃ Segment m} {f : Segment n ≃ Segment n} {s s' : Source}
    (h : s'.segment (m + n) = both e f (s.segment (m + n))) :
    s'.segment m = e (s.segment m) ∧ (s'.skip m).segment n = f ((s.skip m).segment n) := by
  rw [Source.segment_add, Source.segment_add, both_append] at h
  exact Prod.mk.inj ((Fin.appendEquiv m n).injective h)

end Segment

/-! ### Hiding -/

variable {ε ε' α β γ δ δ' δ'' : Type} {m n : Nat}

/-- Two runs draw the same number of bytes, and what they make of matching bytes looks the same. -/
def Hides (n : Nat) (view : α → δ) (run run' : Source → Except ε α × Source) : Prop :=
  ∃ e : Segment n ≃ Segment n, ∀ s s' : Source, s'.segment n = e (s.segment n) →
    ∃ a a', run s = (.ok a, s.skip n) ∧ run' s' = (.ok a', s'.skip n) ∧ view a = view a'

variable {run run' : Source → Except ε α × Source}

/-- Making something of what a run makes. -/
theorem Hides.map {view : α → δ} {view' : β → δ'} (h : Hides n view run run') (f : α → β)
    {next next' : Source → Except ε' β × Source}
    (hnext : ∀ s a rest, run s = (.ok a, rest) → next s = (.ok (f a), rest))
    (hnext' : ∀ s a rest, run' s = (.ok a, rest) → next' s = (.ok (f a), rest))
    (hview : ∀ a a', view a = view a' → view' (f a) = view' (f a')) :
    Hides n view' next next' := by
  obtain ⟨e, he⟩ := h
  refine ⟨e, fun s s' hs => ?_⟩
  obtain ⟨a, a', hrun, hrun', heq⟩ := he s s' hs
  exact ⟨f a, f a', hnext s a _ hrun, hnext' s' a' _ hrun', hview a a' heq⟩

/-- A value made of two segments, where changing them makes up for another way of making it. -/
theorem hides_of_segments {view : α → δ} (make make' : Segment m → Segment n → α)
    (e : Segment m ≃ Segment m) (f : Segment n ≃ Segment n)
    (h : ∀ a b, view (make a b) = view (make' (e a) (f b))) :
    Hides (ε := ε) (m + n) view
      (fun s => (.ok (make (s.segment m) ((s.skip m).segment n)), s.skip (m + n)))
      fun s => (.ok (make' (s.segment m) ((s.skip m).segment n)), s.skip (m + n)) := by
  refine ⟨Segment.both e f, fun s s' hs => ⟨_, _, rfl, rfl, ?_⟩⟩
  obtain ⟨hfirst, hsecond⟩ := Segment.of_both hs
  rw [hfirst, hsecond]
  exact h _ _

/-- Two runs one after the other, and making something of both. -/
theorem Hides.seq {second second' : Source → Except ε β × Source} {view : α → δ} {view' : β → δ'}
    (h : Hides m view run run') (h' : Hides n view' second second') (combine : α → β → γ)
    {both both' : Source → Except ε γ × Source} {view'' : γ → δ''}
    (hboth : ∀ s a s₁ b s₂, run s = (.ok a, s₁) → second s₁ = (.ok b, s₂) →
      both s = (.ok (combine a b), s₂))
    (hboth' : ∀ s a s₁ b s₂, run' s = (.ok a, s₁) → second' s₁ = (.ok b, s₂) →
      both' s = (.ok (combine a b), s₂))
    (hview : ∀ a a' b b', view a = view a' → view' b = view' b' →
      view'' (combine a b) = view'' (combine a' b')) :
    Hides (m + n) view'' both both' := by
  obtain ⟨e, he⟩ := h
  obtain ⟨f, hf⟩ := h'
  refine ⟨Segment.both e f, fun s s' hs => ?_⟩
  obtain ⟨hfirst, hsecond⟩ := Segment.of_both hs
  obtain ⟨a, a', hrun, hrun', ha⟩ := he s s' hfirst
  obtain ⟨b, b', hnext, hnext', hb⟩ := hf (s.skip m) (s'.skip m) hsecond
  refine ⟨combine a b, combine a' b', ?_, ?_, hview a a' b b' ha hb⟩
  · rw [hboth s a _ b _ hrun hnext, Source.skip_skip]
  · rw [hboth' s' a' _ b' _ hrun' hnext', Source.skip_skip]

end TriShare
