import GraphGrammar.Rule.Basic
import GraphGrammar.RuleOption

/-!
# Candidates

A candidate is a design in the making: a graph, the recipe by which it was
made from a seed, the number of cycles it went through, and whatever numbers
an evaluation put down for it.
-/

namespace GraphGrammar

/-- One option that was applied. -/
structure RecipeStep where
  ruleSetIndex : Nat
  ruleNumber : Nat
  optionNumber : Nat
  ruleName : String
  /-- The matched nodes. -/
  nodes : List NodeKey
  arcs : List ArcKey
  hyperarcs : List HyperArcKey
deriving DecidableEq, Repr

/-- The step that applies a rule at an option. -/
def RecipeStep.of (rule : GrammarRule) (o : RuleOption) : RecipeStep where
  ruleSetIndex := o.ruleSetIndex
  ruleNumber := o.ruleNumber
  optionNumber := o.optionNumber
  ruleName := rule.name
  nodes := o.nodeImages
  arcs := o.arcImages
  hyperarcs := o.hyperarcImages

/-- A design in the making. -/
structure Candidate where
  graph : Graph := .empty
  /-- The options applied, in order. -/
  recipe : List RecipeStep := []
  /-- The completed cycles. -/
  generation : Nat := 0
  performance : List Float := []

end GraphGrammar
