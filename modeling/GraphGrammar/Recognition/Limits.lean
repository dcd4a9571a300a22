import GraphGrammar.RuleOption

/-!
# Limits and progress of a search

Recognition is a search that may take exponentially long. It can be given a
budget of steps, it can be told to stop after so many options, and it can be
cancelled. A step is the expansion of a node of the pattern; the step that
exceeds the budget, or that sees the cancellation, is counted too.

`Progress` is what a search carries along: the steps taken, the assignments
found, in order, and why it stopped, once it has.
-/

namespace GraphGrammar

/-- How far a recognition got. -/
inductive RecognitionStatus where
  /-- Everything was searched, or as many options were found as asked for. -/
  | complete
  | cancelled
  | budgetExhausted
deriving DecidableEq, Repr, Inhabited

/-- Limits on one recognition. -/
structure Limits where
  maxSteps : Option Nat := none
  maxOptions : Option Nat := none
  /-- The recognition has been asked to stop. -/
  cancelled : Bool := false
deriving DecidableEq, Repr, Inhabited

/-- The state of a search. -/
structure Progress where
  steps : Nat := 0
  found : Array Assignment := #[]
  stop : Option RecognitionStatus := none
deriving Inhabited

namespace Progress

/-- Whether the search is over. -/
def stopped (p : Progress) : Bool := p.stop.isSome

/-- Counts a step, and stops if it was cancelled or one too many. -/
def tick (limits : Limits) (p : Progress) : Progress :=
  let steps := p.steps + 1
  if limits.cancelled then { p with steps, stop := some .cancelled }
  else if limits.maxSteps.any (· < steps) then { p with steps, stop := some .budgetExhausted }
  else { p with steps }

/-- Records an assignment, and stops if there are enough. -/
def record (limits : Limits) (p : Progress) (a : Assignment) : Progress :=
  let found := p.found.push a
  if limits.maxOptions.any (· ≤ found.size) then { p with found, stop := some .complete }
  else { p with found }

/-- The status of a search that has ended. -/
def status (p : Progress) : RecognitionStatus := p.stop.getD .complete

end Progress

end GraphGrammar
