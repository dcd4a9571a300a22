import GraphGrammar.Confluence
import GraphGrammar.Design.Candidate

/-!
# Choosers

A chooser picks, in each cycle of a run, which of the options to apply, by
their places in the list it is offered. Picking nothing ends the run. A
chooser has a state of its own, which it may change at every call, and it can
ask for the run to be cancelled: recognition looks at that request, so it
takes effect in the next cycle.
-/

namespace GraphGrammar

/-- A way to choose among options, with a state in `σ`. -/
structure Chooser (σ : Type) where
  /-- The places of the chosen options, and the next state. -/
  choose : σ → List RuleOption → Candidate → List Nat × σ
  /-- Whether the run is to be cancelled. -/
  cancels : σ → Bool := fun _ => false

namespace Chooser

/-- The chooser without a state that makes its choice by a rule. -/
def stateless (choice : List RuleOption → Candidate → List Nat) : Chooser Unit where
  choose _ options candidate := (choice options candidate, ())

/-- The first option. -/
def first : Chooser Unit :=
  stateless fun options _ => if options.isEmpty then [] else [0]

/-- The last option. -/
def last : Chooser Unit :=
  stateless fun options _ => if options.isEmpty then [] else [options.length - 1]

/-- All options, in order. -/
def all : Chooser Unit :=
  stateless fun options _ => List.range options.length

/-- All options, last to first. -/
def reverse : Chooser Unit :=
  stateless fun options _ => (List.range options.length).reverse

/-- The maximal confluent sets in turn, one per generation. -/
def confluent : Chooser Unit :=
  stateless fun options candidate =>
    let sets := maximalConfluentSets options
    sets[candidate.generation % sets.length]?.getD []

/-- Numbers from a list in turn, one per generation, counted around the
options. -/
def modulo (picks : List Nat) : Chooser Unit :=
  stateless fun options candidate =>
    match picks[candidate.generation % picks.length]? with
    | none => []
    | some pick => if options.isEmpty then [] else [pick % options.length]

/-- Prepared choices, one per call, as long as there are any. The state is
what is left of them. -/
def scripted : Chooser (List (List Nat)) where
  choose script _ _ := (script.head?.getD [], script.tail)

/-- One call of a chooser: what it was offered and what it chose. -/
structure Call where
  options : List RuleOption
  candidate : Candidate
  chosen : List Nat

/-- A chooser that also keeps a list of its calls, and asks for the run to be
cancelled once there are so many. -/
def logged {σ : Type} (chooser : Chooser σ) (cancelAfter : Option Nat) :
    Chooser (σ × List Call) where
  choose state options candidate :=
    let (chosen, next) := chooser.choose state.1 options candidate
    (chosen, next, state.2 ++ [⟨options, candidate, chosen⟩])
  cancels state :=
    chooser.cancels state.1 || cancelAfter.any fun n => n ≤ state.2.length && !state.2.isEmpty

end Chooser

end GraphGrammar
