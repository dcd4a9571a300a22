import GraphGrammar.Report
import GraphGrammar.Graph.Element

/-!
# What a graph refuses

The causes for which an edit of a graph, or the check of its invariants,
fails.
-/

namespace GraphGrammar

/-- Why an operation on a graph failed. -/
inductive GraphError where
  /-- Another element of the kind bears the name. -/
  | duplicateName (kind : Kind) (name : Name)
  /-- The key refers to no live element. -/
  | unknown (kind : Kind) (key : Key kind)
  /-- A description refers to a node it does not describe. -/
  | unresolvedNodeName (name : Name)
  /-- The graph breaks an invariant. -/
  | inconsistent
deriving DecidableEq, Repr

namespace GraphError

/-- The wording of a cause. -/
def text : GraphError → String
  | duplicateName kind name => s!"{kind.phrase} named `{name}` already exists"
  | unknown kind key => s!"{kind.word} {key.text} does not exist in this graph"
  | unresolvedNodeName name => s!"no node named `{name}` to connect to"
  | inconsistent => "graph is internally inconsistent"

instance : Cause GraphError := ⟨text⟩

end GraphError

end GraphGrammar
