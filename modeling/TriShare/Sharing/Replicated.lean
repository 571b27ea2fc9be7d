import TriShare.Party.Share
import TriShare.Party.Basic
/-!
Replicated sharing: a value is the combination of three components, and each party holds its own
component together with the combination of two, so that any two parties hold all three.
-/

namespace TriShare.Replicated

variable {α : Type}

/-- The combinations `t₁ = s₁ + s₃`, `t₂ = s₁ + s₂` and `t₃ = s₂ + s₃` that the parties hold beside
their components. -/
def redundant (combine : α → α → α) (s : Triple α) : Triple α :=
  ⟨combine s.p1 s.p3, combine s.p1 s.p2, combine s.p2 s.p3⟩

/-- The parties' shares, from the bytes of an element. -/
def shares (bytes : α → List UInt8) (combine : α → α → α) (s : Triple α) : Triple PartyShare :=
  Triple.zipWith (fun t s => PartyShare.ofBytes (bytes t) (bytes s)) (redundant combine s) s

end TriShare.Replicated
