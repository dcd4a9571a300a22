import GraphGrammar.Recognition.Basic
import GraphGrammar.Rule.Draft

/-!
# Structural equivalence

Two graphs are structurally equivalent if they are the same up to names,
positions and the order of things. The question is put to the recognizer: each
graph is made the left-hand side of a rule under the strictest conditions and
looked for in the other. A match compares the variables of an element with as
many variables of its image, so it takes both directions to know that neither
has more.
-/

namespace GraphGrammar

namespace Equivalence

/-- Every variable has the value given, up to the usual tolerance. -/
def sameVariables (values : List Float) : List VariableConstraint :=
  values.zipIdx.map fun (value, index) => { index, comparison := .equal, value }

/-- The strictest condition on the images of a node. -/
def nodeCondition (node : Node) : NodeCondition where
  labelMatch := .exact
  variableConstraints := sameVariables node.values
  strictDegree := true
  restrictToType := true

/-- The strictest condition on the images of an arc. -/
def arcCondition (arc : Arc) : ArcCondition where
  labelMatch := .exact
  variableConstraints := sameVariables arc.values
  directionIsEqual := true
  danglingMeansDangling := true

/-- The strictest condition on the images of a hyperarc. -/
def hyperarcCondition (hyperarc : HyperArc) : HyperArcCondition where
  labelMatch := .exact
  variableConstraints := sameVariables hyperarc.values
  strictMemberCount := true

/-- The conditions on the elements of a list, by name. -/
def conditions {α γ : Type} [Attributed α] (condition : α → γ) (elements : List α) : NameMap γ :=
  .ofList (elements.map fun a => (Attributed.nameOf a, condition a))

/-- The draft of a rule that finds a graph with nothing missing and nothing
beside it. -/
def exactDraft (g : Graph) : RuleDraft where
  name := "equivalence"
  l := g.copy
  r := g.copy
  containsAllGlobalLabels := true
  induced := true
  spanning := true
  nodeConditions := conditions nodeCondition g.nodes.elements
  arcConditions := conditions arcCondition g.arcs.elements
  hyperarcConditions := conditions hyperarcCondition g.hyperarcs.elements

/-- Whether a graph occurs in another one with nothing missing and nothing
beside it. -/
def embedsExactly (pattern host : Graph) : Bool :=
  match (exactDraft pattern).build with
  | .error _ => false
  | .ok rule => !(recognize host rule { maxOptions := some 1 }).options.isEmpty

/-- The labels of all nodes. -/
def nodeLabels (g : Graph) : List Label := g.nodes.elements.flatMap (·.labels.toList)

/-- What can be compared without looking for a match: numbers of elements,
globals, and how often each label occurs on nodes. -/
def sameOutline (a b : Graph) : Bool :=
  a.nodes.count == b.nodes.count && a.arcs.count == b.arcs.count
    && a.hyperarcs.count == b.hyperarcs.count
    && a.globalLabels.sameLabels b.globalLabels
    && a.globalVariables == b.globalVariables
    && (nodeLabels a).isPerm (nodeLabels b)

end Equivalence

/-- Whether two graphs have the same structure, labels and variables, whatever
their names and positions. -/
def structurallyEquivalent (a b : Graph) : Bool :=
  Equivalence.sameOutline a b && Equivalence.embedsExactly a b && Equivalence.embedsExactly b a

end GraphGrammar
