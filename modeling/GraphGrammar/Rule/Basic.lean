import GraphGrammar.Correspondence
import GraphGrammar.Graph.Basic
import GraphGrammar.Rule.Condition
import GraphGrammar.Rule.Embedding

/-!
# Grammar rules

A rule replaces occurrences of a pattern, its left-hand side L, by its
right-hand side R. The elements that L and R share make up the context K: they
stay, and the rest of L goes and the rest of R comes. A correspondence for each
kind of elements pairs the context elements of L with those of R.

Conditions restrict where L may match, and settings the match as a whole.
`GraphGrammar.Rule.Draft` makes rules; the elements of the graphs of a rule it
makes are numbered without gaps, so the condition on an element of L stands in
a list at the place of its key.
-/

namespace GraphGrammar

/-- What a rule asks of a match as a whole, and what it does beside putting R
in the place of L. -/
structure RuleSettings where
  /-- Global labels that the host must not have. -/
  negateGlobalLabels : LabelSet := .empty
  /-- The host has the global labels of L and no other. -/
  containsAllGlobalLabels : Bool := false
  /-- The global labels of L are a run of those of the host. -/
  orderedGlobalLabels : Bool := false
  globalVariableConstraints : List VariableConstraint := []
  /-- Every node of the host is matched. -/
  spanning : Bool := false
  /-- Every arc of the host between matched nodes is matched. -/
  induced : Bool := false
  /-- Nodes of the context move as they do from L to R. -/
  transformNodePositions : Bool := false
  embeddingRules : List EmbeddingRule := []

/-- A grammar rule. -/
structure GrammarRule extends RuleSettings where
  name : String
  l : Graph
  k : Graph
  r : Graph
  /-- The condition on each node of L, by key. -/
  nodeConditions : List NodeCondition
  arcConditions : List ArcCondition
  hyperarcConditions : List HyperArcCondition
  /-- The context nodes of L with their counterparts in R. -/
  contextNodes : Correspondence NodeKey NodeKey
  contextArcs : Correspondence ArcKey ArcKey
  contextHyperArcs : Correspondence HyperArcKey HyperArcKey

namespace GrammarRule

/-- The condition on a node of L. -/
def nodeCondition (rule : GrammarRule) (key : NodeKey) : NodeCondition :=
  rule.nodeConditions[key.index]?.getD {}

/-- The condition on an arc of L. -/
def arcCondition (rule : GrammarRule) (key : ArcKey) : ArcCondition :=
  rule.arcConditions[key.index]?.getD {}

/-- The condition on a hyperarc of L. -/
def hyperarcCondition (rule : GrammarRule) (key : HyperArcKey) : HyperArcCondition :=
  rule.hyperarcConditions[key.index]?.getD {}

/-- Whether a node of L must not be there. -/
def isNegativeNode (rule : GrammarRule) (key : NodeKey) : Bool :=
  (rule.nodeCondition key).negative

/-- Whether an arc of L must not be there. -/
def isNegativeArc (rule : GrammarRule) (key : ArcKey) : Bool :=
  (rule.arcCondition key).negative

/-- Whether a hyperarc of L must not be there. -/
def isNegativeHyperArc (rule : GrammarRule) (key : HyperArcKey) : Bool :=
  (rule.hyperarcCondition key).negative

/-- Whether any element of L must not be there. -/
def hasNegativeElements (rule : GrammarRule) : Bool :=
  rule.nodeConditions.any (·.negative) || rule.arcConditions.any (·.negative)
    || rule.hyperarcConditions.any (·.negative)

end GrammarRule

end GraphGrammar
