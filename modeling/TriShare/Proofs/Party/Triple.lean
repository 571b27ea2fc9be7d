import Mathlib.Logic.Function.Defs
import TriShare.Party.Basic
/-!
What each party gets of things that are made for all three of them at once.
-/

namespace TriShare.Triple

variable {α β γ : Type}

@[simp] theorem get_all (a : α) (p : Party) : (all a).get p = a := by
  cases p <;> rfl

@[simp] theorem get_map (f : α → β) (t : Triple α) (p : Party) : (t.map f).get p = f (t.get p) := by
  cases p <;> rfl

@[simp] theorem get_zipWith (f : α → β → γ) (t : Triple α) (u : Triple β) (p : Party) :
    (zipWith f t u).get p = f (t.get p) (u.get p) := by
  cases p <;> rfl

theorem map_injective {f : α → β} (hf : Function.Injective f) : Function.Injective (map f)
  | ⟨_, _, _⟩, ⟨_, _, _⟩, h => by
    simp only [map, mk.injEq] at h
    rw [mk.injEq]
    exact ⟨hf h.1, hf h.2.1, hf h.2.2⟩

end TriShare.Triple
