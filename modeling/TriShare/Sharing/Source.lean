import TriShare.Bytes
/-!
A source of random bytes: an endless tape, and how far it has been read.
-/

namespace TriShare

/-- A tape of bytes, of which the first `drawn` are used up. -/
structure Source where
  tape : Nat → UInt8
  drawn : Nat

namespace Source

/-- An unread tape. -/
def ofTape (tape : Nat → UInt8) : Source := ⟨tape, 0⟩

/-- The next `n` bytes. -/
def peek (s : Source) (n : Nat) : List UInt8 := (List.range n).map fun i => s.tape (s.drawn + i)

/-- The source after `n` more bytes. -/
def skip (s : Source) (n : Nat) : Source := { s with drawn := s.drawn + n }

/-- Draws `n` bytes. -/
def take (s : Source) (n : Nat) : List UInt8 × Source := (s.peek n, s.skip n)

/-- Draws a word of eight bytes, the least significant first. -/
def word (s : Source) : UInt64 × Source := (UInt64.ofNat (Bytes.value (s.peek 8)), s.skip 8)

end Source

end TriShare
