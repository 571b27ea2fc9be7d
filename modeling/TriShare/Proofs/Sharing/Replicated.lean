import TriShare.Proofs.Bytes
import TriShare.Proofs.Party.Share
import TriShare.Proofs.Sharing.Source
import TriShare.Sharing.Additive
import TriShare.Sharing.Bytewise
/-!
Any two parties can open a value. `Opens` says what the parties hold of it and that each pair of
them, and all three components together, make the value; `opens_redundant` has this for every
combination that does not depend on order and grouping, and both kinds of sharing are cases of it.
-/

namespace TriShare

namespace Replicated

variable {α : Type} {combine : α → α → α} {value : α} {t s : Triple α}

/-- What the parties hold of a value: each its own component and the combination of two, so that
what one lacks the next one has. -/
structure Opens (combine : α → α → α) (value : α) (t s : Triple α) : Prop where
  first : t.p1 = combine s.p1 s.p3
  second : t.p2 = combine s.p1 s.p2
  third : t.p3 = combine s.p2 s.p3
  firstSecond : combine t.p1 s.p2 = value
  secondThird : combine t.p2 s.p3 = value
  thirdFirst : combine t.p3 s.p1 = value
  components : combine (combine s.p1 s.p2) s.p3 = value

theorem opens_redundant [Std.Associative combine] [Std.Commutative combine]
    (h : combine (combine s.p1 s.p2) s.p3 = value) :
    Opens combine value (redundant combine s) s where
  first := rfl
  second := rfl
  third := rfl
  firstSecond := by
    change combine (combine s.p1 s.p3) s.p2 = value
    rw [← h]
    ac_rfl
  secondThird := h
  thirdFirst := by
    change combine (combine s.p2 s.p3) s.p1 = value
    rw [← h]
    ac_rfl
  components := h

/-- The parties' texts are read as what `Opens` is about. -/
def ReadAs (n : Nat) (texts : Triple String) (t s : Triple (List UInt8)) : Prop :=
  ∀ p, PartyShare.ReadsAs n (texts.get p) (t.get p) (s.get p)

theorem readAs_shares {n : Nat} (bytes : α → List UInt8) (hn : n ≠ 0)
    (ht : ∀ p, (bytes ((redundant combine s).get p)).length = n)
    (hs : ∀ p, (bytes (s.get p)).length = n) :
    ReadAs n ((shares bytes combine s).map PartyShare.text)
      ((redundant combine s).map bytes) (s.map bytes)
  | .first => PartyShare.readsAs_text (ht .first) (hs .first) hn
  | .second => PartyShare.readsAs_text (ht .second) (hs .second) hn
  | .third => PartyShare.readsAs_text (ht .third) (hs .third) hn

end Replicated

/-! ### Numbers -/

theorem Triple.map_toWord_ofWord (t : Triple UInt64) :
    (t.map Bytes.ofWord).map Bytes.toWord = t := by
  simp only [Triple.map, Bytes.toWord_ofWord]

namespace Additive

theorem reconstruct_split (num s1 s2 : UInt64) : reconstruct (split num s1 s2) = num := by
  simp only [reconstruct, split]
  grind

theorem opens_split (num s1 s2 : UInt64) :
    Replicated.Opens (· + ·) num (redundant (split num s1 s2)) (split num s1 s2) :=
  have : Std.Associative (α := UInt64) (· + ·) := ⟨UInt64.add_assoc⟩
  have : Std.Commutative (α := UInt64) (· + ·) := ⟨UInt64.add_comm⟩
  Replicated.opens_redundant (reconstruct_split num s1 s2)

theorem readAs_shares (s : Triple UInt64) :
    Replicated.ReadAs 8 ((shares s).map PartyShare.text) ((redundant s).map Bytes.ofWord)
      (s.map Bytes.ofWord) :=
  Replicated.readAs_shares Bytes.ofWord (by decide) (fun _ => Bytes.length_ofWord _)
    fun _ => Bytes.length_ofWord _

end Additive

/-! ### Byte strings -/

namespace Bytewise

/-- What the components make: the empty string is shared as a single zero byte. -/
def shown (plain : List UInt8) : List UInt8 := if plain.isEmpty then [0] else plain

theorem length_shown (plain : List UInt8) : (shown plain).length = max plain.length 1 := by
  cases plain with
  | nil => rfl
  | cons b bs => simp [shown]

theorem shown_ne_nil (plain : List UInt8) : shown plain ≠ [] := by
  cases plain <;> simp [shown]

theorem reconstruct_split {plain s1 s2 : List UInt8} (h1 : s1.length = plain.length)
    (h2 : s2.length = plain.length) : reconstruct (split plain s1 s2) = plain := by
  have hlength : (Bytes.xor s1 s2).length = plain.length := by
    rw [Bytes.length_xor, h1, h2, min_self]
  rw [reconstruct, split, Bytes.xor_assoc plain, Bytes.xor_comm, Bytes.xor_xor_cancel hlength.symm]

/-- Three components of one length that make a byte string. -/
structure Components (plain : List UInt8) (s : Triple (List UInt8)) : Prop where
  length : ∀ p, (s.get p).length = plain.length
  reconstruct : reconstruct s = plain

theorem components_split {plain s1 s2 : List UInt8} (h1 : s1.length = plain.length)
    (h2 : s2.length = plain.length) : Components plain (split plain s1 s2) where
  length
    | .first => h1
    | .second => h2
    | .third => by simp [Triple.get, split, Bytes.length_xor, h1, h2]
  reconstruct := reconstruct_split h1 h2

theorem components_empty : Components [0] empty where
  length p := by cases p <;> rfl
  reconstruct := rfl

theorem components_draw (plain : List UInt8) (source : Source) :
    Components (shown plain) (draw plain source).1 := by
  rw [draw, shown]
  split
  · exact components_empty
  · exact components_split (source.length_peek _) ((source.skip _).length_peek _)

variable {plain : List UInt8} {s : Triple (List UInt8)}

theorem Components.opens (h : Components plain s) :
    Replicated.Opens Bytes.xor plain (redundant s) s :=
  Replicated.opens_redundant h.reconstruct

theorem Components.readAs (h : Components plain s) (hne : plain ≠ []) :
    Replicated.ReadAs plain.length ((shares s).map PartyShare.text) (redundant s) s := by
  have hpos : plain.length ≠ 0 := fun h => hne (List.length_eq_zero_iff.mp h)
  have hredundant : ∀ p, ((redundant s).get p).length = plain.length := by
    have h1 : s.p1.length = plain.length := h.length .first
    have h2 : s.p2.length = plain.length := h.length .second
    have h3 : s.p3.length = plain.length := h.length .third
    intro p
    cases p <;> simp [redundant, Replicated.redundant, Triple.get, Bytes.length_xor, h1, h2, h3]
  exact Replicated.readAs_shares id hpos hredundant h.length

end Bytewise

end TriShare
