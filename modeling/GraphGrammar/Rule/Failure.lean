import GraphGrammar.Report
import GraphGrammar.Graph.Element

/-!
# What is wrong with a rule

The causes for which a draft does not make a rule.
-/

namespace GraphGrammar

/-- The three graphs of a rule. -/
inductive Side where
  | l
  | k
  | r
deriving DecidableEq, Repr

/-- The letter of a side. -/
def Side.letter : Side → String
  | .l => "L"
  | .k => "K"
  | .r => "R"

/-- Why a draft does not make a rule. -/
inductive RuleError where
  /-- A graph breaks the invariant of graphs. -/
  | malformedGraph (side : Side)
  /-- A context element has no element of its name on a side. -/
  | contextElementMissing (side : Side) (kind : Kind) (name : Name)
  /-- A context element is not connected as its counterparts are. -/
  | contextConnectionMismatch (kind : Kind) (name : Name)
  /-- A negative element has a counterpart in the context. -/
  | negativeElementInContext (kind : Kind) (name : Name)
  /-- An element refers to a negative node and is not negative. -/
  | attachedToNegativeNode (kind : Kind) (name : Name)
  /-- A condition is for an element that L does not have. -/
  | unknownConditionTarget (kind : Kind) (name : Name)
  /-- An embedding rule names a node that a side does not have. -/
  | unknownEmbeddingNode (side : Side) (name : Name)
deriving DecidableEq, Repr

namespace RuleError

/-- The wording of a cause. -/
def text : RuleError → String
  | malformedGraph side => s!"the {side.letter} graph is malformed"
  | contextElementMissing side kind name =>
    s!"context {kind.word} `{name}` has no counterpart in {side.letter}"
  | contextConnectionMismatch kind name =>
    s!"context {kind.word} `{name}` is connected differently in L, K and R"
  | negativeElementInContext kind name =>
    s!"negative {kind.word} `{name}` cannot be part of the context"
  | attachedToNegativeNode kind name =>
    s!"{kind.word} `{name}` touches a negative node but is not negative itself"
  | unknownConditionTarget kind name =>
    s!"a condition refers to {kind.word} `{name}`, which is not in L"
  | unknownEmbeddingNode side name =>
    s!"an embedding rule refers to node `{name}`, which is not in {side.letter}"

instance : Cause RuleError := ⟨text⟩

end RuleError

end GraphGrammar
