/-!
The three computing parties, and what there is once for each of them.
-/

namespace TriShare

/-- A computing party. -/
inductive Party
  | first
  | second
  | third
  deriving DecidableEq, Repr

namespace Party

def all : List Party := [.first, .second, .third]

/-- The number of a party, counted from zero. -/
def index : Party → Nat
  | .first => 0
  | .second => 1
  | .third => 2

/-- The name of a party in files and directories. -/
def name (p : Party) : String := s!"p{p.index + 1}"

/-- The name of a party in JSON documents. -/
def tag (p : Party) : String := s!"P{p.index + 1}"

end Party

/-- One thing for each party. -/
structure Triple (α : Type) where
  p1 : α
  p2 : α
  p3 : α
  deriving DecidableEq, Repr

namespace Triple

variable {α β γ : Type}

def get (t : Triple α) : Party → α
  | .first => t.p1
  | .second => t.p2
  | .third => t.p3

/-- The same thing for every party. -/
def all (a : α) : Triple α := ⟨a, a, a⟩

def map (f : α → β) (t : Triple α) : Triple β := ⟨f t.p1, f t.p2, f t.p3⟩

def zipWith (f : α → β → γ) (t : Triple α) (u : Triple β) : Triple γ :=
  ⟨f t.p1 u.p1, f t.p2 u.p2, f t.p3 u.p3⟩

def toList (t : Triple α) : List α := [t.p1, t.p2, t.p3]

end Triple

end TriShare
