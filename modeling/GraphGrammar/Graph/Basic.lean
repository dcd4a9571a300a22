import GraphGrammar.Graph.Registry

/-!
# Attributed multigraphs with hyperarcs

A graph is a name, a registry of nodes, one of arcs and one of hyperarcs, and
labels and variables of the graph as a whole. Arcs and hyperarcs refer to
nodes by key; what is at a node is derived from them (`incidentArcs`,
`degree`, …).

`WellFormed` is the invariant that the edits of `GraphGrammar.Graph.Edit`
keep: within each kind the names are distinct and the index maps exactly the
live names to their keys, every end and member is a live node, and no
hyperarc has a member twice.

Nothing is stored at a node about what is attached to it. An arc that is turned around or
detached is changed in one place, and there is no second record of it to be kept in step. The
price is paid when it is asked what is at a node: the arcs are gone through. The search for
matches, which asks this often, builds tables of it first (`GraphGrammar.Recognition.Adjacency`).
-/

namespace GraphGrammar

/-- An attributed multigraph with hyperarcs. -/
structure Graph where
  name : String := ""
  nodes : Registry .node Node := .empty
  arcs : Registry .arc Arc := .empty
  hyperarcs : Registry .hyperarc HyperArc := .empty
  globalLabels : LabelSet := .empty
  globalVariables : List Float := []

namespace Graph

/-- The graph without elements. -/
def empty : Graph := {}

/-- A node by key. -/
def node? (g : Graph) (key : NodeKey) : Option Node := g.nodes.get? key

/-- An arc by key. -/
def arc? (g : Graph) (key : ArcKey) : Option Arc := g.arcs.get? key

/-- A hyperarc by key. -/
def hyperarc? (g : Graph) (key : HyperArcKey) : Option HyperArc := g.hyperarcs.get? key

/-- Whether a node key refers to a live node. -/
def hasNode (g : Graph) (key : NodeKey) : Bool := g.nodes.contains key

/-- Whether the indices hold no name. -/
def isEmpty (g : Graph) : Bool :=
  g.nodes.count == 0 && g.arcs.count == 0 && g.hyperarcs.count == 0

/-- The name of the node at an end or in a member list, if there is one and it is alive. Rules
compare ends by these names, as the two sides of a rule have keys of their own. -/
def nodeName? (g : Graph) (key : Option NodeKey) : Option Name :=
  (key.bind g.node?).map (·.name)

/-! ## What is at a node

These are answered by going over all arcs or hyperarcs. Where many such questions are asked of
one graph, the tables of `GraphGrammar.Recognition.Adjacency` answer them. -/

/-- The arcs that leave from a node. -/
def arcsFrom (g : Graph) (node : NodeKey) : List ArcKey :=
  (g.arcs.entries.filter (·.2.source == some node)).map Prod.fst

/-- The arcs that lead to a node. -/
def arcsTo (g : Graph) (node : NodeKey) : List ArcKey :=
  (g.arcs.entries.filter (·.2.target == some node)).map Prod.fst

/-- The arcs with an end at a node; a loop is listed once. -/
def incidentArcs (g : Graph) (node : NodeKey) : List ArcKey :=
  (g.arcs.entries.filter (·.2.touches node)).map Prod.fst

/-- The hyperarcs a node is a member of. -/
def hyperarcsOf (g : Graph) (node : NodeKey) : List HyperArcKey :=
  (g.hyperarcs.entries.filter (·.2.contains node)).map Prod.fst

/-- The number of arc ends at a node, two for a loop, and of hyperarcs that contain it. A loop
adds two, as it does for the arcs of a pattern, so that degrees can be compared with those of L.
-/
def degree (g : Graph) (node : NodeKey) : Nat :=
  (g.arcs.elements.flatMap Arc.ends).count node + (g.hyperarcsOf node).length

/-- The arcs with both ends among the members of a hyperarc. -/
def intraArcs (g : Graph) (key : HyperArcKey) : List ArcKey :=
  match g.hyperarc? key with
  | none => []
  | some h =>
    (g.arcs.entries.filter fun (_, arc) =>
      arc.source.any h.contains && arc.target.any h.contains).map Prod.fst

/-! ## The invariant

Three of its six clauses are about the indices, one for each kind, and the others about references:
one about the ends of arcs and two about the members of hyperarcs. That ends and members are alive
is said for what a key finds, so an empty slot is no exception to be made. -/

/-- The names of the elements are distinct, and the index maps exactly these names to the keys of
their elements. As an equivalence it says three things at once: what the index says is true, no
element is missing from it, and no two elements have one name. -/
def Indexed {κ : Kind} {α : Type} [Attributed α] (r : Registry κ α) : Prop :=
  ∀ name key, r.find? name = some key ↔ ∃ a, r.get? key = some a ∧ Attributed.nameOf a = name

/-- **The invariant of graphs.** An arc may have no node at an end; what it may not have there is
a node that is gone. -/
structure WellFormed (g : Graph) : Prop where
  nodes_indexed : Indexed g.nodes
  arcs_indexed : Indexed g.arcs
  hyperarcs_indexed : Indexed g.hyperarcs
  ends_alive : ∀ key arc, g.arc? key = some arc → ∀ node ∈ arc.ends, g.hasNode node
  members_alive :
    ∀ key hyperarc, g.hyperarc? key = some hyperarc → ∀ node ∈ hyperarc.members, g.hasNode node
  members_distinct :
    ∀ key hyperarc, g.hyperarc? key = some hyperarc → hyperarc.members.Nodup

end Graph

end GraphGrammar
