/-!
# One-to-one correspondences

A correspondence pairs values of one type with values of another so that
neither side of a pair occurs in another pair. It is kept as two maps, one for
each direction; a stored correspondence is read as it stands, so that the two
maps are inverse to each other is a property of the correspondences that
`insert` builds.
-/

namespace GraphGrammar

/-- Pairs of values, as a map in each direction. -/
structure Correspondence (α β : Type) where
  forward : List (α × β) := []
  backward : List (β × α) := []
deriving Inhabited

namespace Correspondence

variable {α β : Type} [DecidableEq α] [DecidableEq β]

/-- The correspondence without pairs. -/
def empty : Correspondence α β := {}

/-- The number of pairs. -/
def size (c : Correspondence α β) : Nat := c.forward.length

/-- What a value of the left side is paired with. -/
def right? (c : Correspondence α β) (a : α) : Option β := c.forward.lookup a

/-- What a value of the right side is paired with. -/
def left? (c : Correspondence α β) (b : β) : Option α := c.backward.lookup b

/-- Pairs two values, or returns nothing if either is paired already. -/
def insert? (c : Correspondence α β) (a : α) (b : β) : Option (Correspondence α β) :=
  if (c.right? a).isSome || (c.left? b).isSome then none
  else some ⟨(a, b) :: c.forward, (b, a) :: c.backward⟩

/-- Pairs two values unless either is paired already. -/
def insert (c : Correspondence α β) (a : α) (b : β) : Correspondence α β :=
  (c.insert? a b).getD c

end Correspondence

end GraphGrammar
