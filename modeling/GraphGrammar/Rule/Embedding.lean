import GraphGrammar.Graph.Element

/-!
# Embedding rules

When a rule deletes a node, arcs that the rule does not know of may lose an
end. An embedding rule says which of these arcs it takes up and to which node
of the right-hand side it attaches them.
-/

namespace GraphGrammar

/-- The direction of an arc as seen from a node at one of its ends. -/
inductive ArcDirection where
  /-- Whatever direction there is. -/
  | any
  /-- The arc points at the node. -/
  | into
  /-- The arc leaves the node. -/
  | outOf
deriving DecidableEq, Repr, Inhabited

namespace ArcDirection

/-- The direction of an arc as seen from the node at an end. -/
def atEnd : ArcEnd → ArcDirection
  | .target => into
  | .source => outOf

/-- Whether an arc of some actual direction meets a required one. An arc
without orientation meets every requirement. -/
def admits (required actual : ArcDirection) (oriented : Bool) : Bool :=
  !oriented || required == any || required == actual

end ArcDirection

/-- Says how arcs that lost an end are attached again. -/
structure EmbeddingRule where
  /-- The node of the right-hand side that takes the arc. -/
  rNode : Name
  /-- The node of the left-hand side whose deletion freed the arc, if that
  matters. -/
  lNode : Option Name := none
  /-- Labels that the arc must have. -/
  arcLabels : LabelSet := .empty
  /-- Labels that the arc must not have. -/
  arcNegateLabels : LabelSet := .empty
  /-- Labels that the node at the other end must have. -/
  neighborLabels : LabelSet := .empty
  /-- Labels that the node at the other end must not have. -/
  neighborNegateLabels : LabelSet := .empty
  /-- The direction that the arc must have, as seen from the node it lost. -/
  oldDirection : ArcDirection := .any
  /-- The direction that the arc gets, as seen from the node it is attached
  to. -/
  newDirection : ArcDirection := .any
  /-- Embedding rules after this one may take the arc as well, each with a
  copy of its own. -/
  allowDuplication : Bool := false

/-- Whether an embedding rule takes up an arc with these labels, this
neighbour and this direction. An arc without a neighbour is taken only if the
neighbour need not have a label. -/
def EmbeddingRule.admits (e : EmbeddingRule) (arcLabels : LabelSet)
    (neighborLabels : Option LabelSet) (direction : ArcDirection) (oriented : Bool) : Bool :=
  arcLabels.containsAll e.arcLabels
    && !arcLabels.containsAny e.arcNegateLabels
    && (match neighborLabels with
      | some labels =>
        labels.containsAll e.neighborLabels && !labels.containsAny e.neighborNegateLabels
      | none => e.neighborLabels.isEmpty)
    && e.oldDirection.admits direction oriented

end GraphGrammar
