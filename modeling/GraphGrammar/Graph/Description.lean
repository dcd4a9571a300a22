import GraphGrammar.Graph.Upkeep

/-!
# Graphs described by name

A description lists the elements of a graph in order and refers to nodes by
name, the way a file does. Connecting it resolves the names: keys are given in
the order of description, a reference to a name that no node bears is refused,
and so is a node name borne twice, since references to it would be ambiguous.
Names of arcs and hyperarcs are not referred to, so a repeated one is
numbered.

Describing a graph goes the other way and leaves out what is not alive.
-/

namespace GraphGrammar

/-- What descriptions of elements of every kind hold. -/
structure ElementDescription where
  name : Name := ""
  labels : List Label := []
  /-- The numeric variables, told apart by their places. -/
  values : List Float := []
  typeTag : Option TypeTag := none

/-- Describes a node. -/
structure NodeDescription extends ElementDescription where
  position : Point Float := .origin

/-- Describes an arc; an end that is absent dangles. -/
structure ArcDescription extends ElementDescription where
  source : Option Name := none
  target : Option Name := none
  directed : Bool := false
  doublyDirected : Bool := false

/-- Describes a hyperarc. -/
structure HyperArcDescription extends ElementDescription where
  members : List Name := []

/-- Describes a graph. -/
structure GraphDescription where
  name : String := ""
  nodes : List NodeDescription := []
  arcs : List ArcDescription := []
  hyperarcs : List HyperArcDescription := []
  globalLabels : List Label := []
  globalVariables : List Float := []

/-! ## Connecting

A reference is resolved among the nodes that the description itself brings, so all nodes are
added before the first arc. -/

/-- The attributes described, with repeated labels dropped. -/
def ElementDescription.attributes (d : ElementDescription) : Attributes where
  name := d.name
  labels := .ofList d.labels
  values := d.values
  typeTag := d.typeTag

/-- The attributes in described form. -/
def Attributes.describe (a : Attributes) : ElementDescription where
  name := a.name
  labels := a.labels.toList
  values := a.values
  typeTag := a.typeTag

/-- The node described. -/
def NodeDescription.toNode (d : NodeDescription) : Node where
  toAttributes := d.attributes
  position := d.position

namespace Graph

/-- The node that a description refers to by name. -/
def resolve (g : Graph) (name : Name) : Outcome GraphError NodeKey :=
  match g.nodes.find? name with
  | some key => .ok key
  | none => .fail (.unresolvedNodeName name)

/-- The end that a description refers to by name, or a dangling one. -/
def resolveEnd (g : Graph) : Option Name → Outcome GraphError (Option NodeKey)
  | none => .ok none
  | some name => (g.resolve name).map some

/-- Adds the arc that a description describes. A doubly directed arc is
directed. -/
def connectArc (g : Graph) (d : ArcDescription) : Outcome GraphError Graph := do
  let source ← g.resolveEnd d.source
  let target ← g.resolveEnd d.target
  let (_, connected) ← g.addArcUnique
    { d.attributes with
      source
      target
      directed := d.directed || d.doublyDirected
      doublyDirected := d.doublyDirected }
  return connected

/-- Adds the hyperarc that a description describes, with repeated members
dropped. -/
def connectHyperArc (g : Graph) (d : HyperArcDescription) : Outcome GraphError Graph := do
  let members ← d.members.mapM g.resolve
  let (_, connected) ← g.addHyperArcUnique
    { d.attributes with members := distinctMembers members }
  return connected

end Graph

/-- The graph described: first the nodes, then the arcs, then the
hyperarcs. -/
def GraphDescription.connect (d : GraphDescription) : Outcome GraphError Graph := do
  let bare : Graph :=
    { name := d.name, globalLabels := .ofList d.globalLabels, globalVariables := d.globalVariables }
  let withNodes ← d.nodes.foldlM (fun g node => (g.addNode node.toNode).map Prod.snd) bare
  let withArcs ← d.arcs.foldlM Graph.connectArc withNodes
  d.hyperarcs.foldlM Graph.connectHyperArc withArcs

/-! ## Describing

A description has no keys. Whatever refers to a node names it, and a reference that finds nothing
is left out. -/

namespace Graph

/-- A node in described form. -/
def describeNode (node : Node) : NodeDescription where
  toElementDescription := node.describe
  position := node.position

/-- An arc in described form; an end that is not alive is left out. -/
def describeArc (g : Graph) (arc : Arc) : ArcDescription where
  toElementDescription := arc.describe
  source := g.nodeName? arc.source
  target := g.nodeName? arc.target
  directed := arc.directed
  doublyDirected := arc.doublyDirected

/-- A hyperarc in described form; members that are not alive are left out. -/
def describeHyperArc (g : Graph) (hyperarc : HyperArc) : HyperArcDescription where
  toElementDescription := hyperarc.describe
  members := hyperarc.members.filterMap fun key => g.nodeName? (some key)

/-- The graph in described form. -/
def describe (g : Graph) : GraphDescription where
  name := g.name
  nodes := g.nodes.elements.map describeNode
  arcs := g.arcs.elements.map g.describeArc
  hyperarcs := g.hyperarcs.elements.map g.describeHyperArc
  globalLabels := g.globalLabels.toList
  globalVariables := g.globalVariables

end Graph

end GraphGrammar
