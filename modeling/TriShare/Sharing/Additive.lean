import TriShare.Sharing.Replicated
import TriShare.Sharing.Source
/-!
Sharing of numbers modulo `2 ^ 64`: three components that add up to the number, the first two of
them random.
-/

namespace TriShare.Additive

/-- The components of a number, of which two are given. -/
def split (num s1 s2 : UInt64) : Triple UInt64 := ⟨s1, s2, num - s1 - s2⟩

/-- The components of a number, two of them drawn. -/
def draw (num : UInt64) (source : Source) : Triple UInt64 × Source :=
  let (s1, source) := source.word
  let (s2, source) := source.word
  (split num s1 s2, source)

/-- The combinations that the parties hold. -/
def redundant (s : Triple UInt64) : Triple UInt64 := Replicated.redundant (· + ·) s

/-- The number that the components add up to. -/
def reconstruct (s : Triple UInt64) : UInt64 := s.p1 + s.p2 + s.p3

/-- The parties' shares, with sixteen digits in each half. -/
def shares (s : Triple UInt64) : Triple PartyShare := Replicated.shares Bytes.ofWord (· + ·) s

end TriShare.Additive
