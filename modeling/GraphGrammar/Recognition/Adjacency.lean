import Std.Data.TreeSet.Basic
import GraphGrammar.Graph.Basic

/-!
# Adjacency tables

A search asks again and again for the degree of a node, the arcs at it and
the nodes next to it. An `Adjacency` holds the answers for all nodes of a
graph, in lists with one place for each slot, and is filled in one pass over
arcs and hyperarcs.

The neighbours of a node are the nodes at the other ends of its arcs,
whichever way the arcs point, each listed once and in the order in which the
arcs bring them up. A node with a loop is a neighbour of itself.

The tables of a host are asked as well whether two nodes are neighbours, and
so they hold a set of such pairs beside the lists (`Surroundings`). It is the
set that tells whether an arc brings up a neighbour that is new.
-/

namespace GraphGrammar

/-- Degree, arcs and neighbours of each node of a graph. -/
structure Adjacency where
  degrees : List Nat
  incidences : List (List ArcKey)
  neighborhoods : List (List NodeKey)

namespace Adjacency

/-- The tables of a graph without arcs and hyperarcs. -/
def blank (slots : Nat) : Adjacency :=
  ⟨List.replicate slots 0, List.replicate slots [], List.replicate slots []⟩

/-- The number of arc ends and hyperarcs at a node. -/
def degree (t : Adjacency) (node : NodeKey) : Nat := t.degrees[node.index]?.getD 0

/-- The arcs with an end at a node. -/
def incident (t : Adjacency) (node : NodeKey) : List ArcKey := t.incidences[node.index]?.getD []

/-- The nodes next to a node. -/
def neighbors (t : Adjacency) (node : NodeKey) : List NodeKey :=
  t.neighborhoods[node.index]?.getD []

/-! ## Filling the tables

Every arc and every hyperarc is entered once, in the order of the slots, and an entry changes the
places of the nodes at it only. -/

/-- Counts an arc end or a hyperarc at a node. -/
def countAt (t : Adjacency) (node : NodeKey) : Adjacency :=
  { t with degrees := t.degrees.modify node.index (· + 1) }

/-- Lists an arc at a node. -/
def listAt (key : ArcKey) (t : Adjacency) (node : NodeKey) : Adjacency :=
  { t with incidences := t.incidences.modify node.index (· ++ [key]) }

/-- Makes a node a neighbour of another one, unless it is one already. -/
def addNeighbor (t : Adjacency) (node neighbor : NodeKey) : Adjacency :=
  { t with
    neighborhoods := t.neighborhoods.modify node.index fun known =>
      if known.contains neighbor then known else known ++ [neighbor] }

/-- Counts and lists an arc at its ends. -/
def addEnds (t : Adjacency) (key : ArcKey) (arc : Arc) : Adjacency :=
  (distinctMembers arc.ends).foldl (listAt key) (arc.ends.foldl countAt t)

/-- Enters an arc. -/
def addArc (t : Adjacency) (entry : ArcKey × Arc) : Adjacency :=
  let (key, arc) := entry
  let listed := t.addEnds key arc
  match arc.source, arc.target with
  | some source, some target => (listed.addNeighbor source target).addNeighbor target source
  | _, _ => listed

/-- Enters a hyperarc. -/
def addHyperArc (t : Adjacency) (hyperarc : HyperArc) : Adjacency :=
  hyperarc.members.foldl countAt t

/-- The tables for nodes in so many slots under some arcs and hyperarcs. -/
def build (slots : Nat) (arcs : List (ArcKey × Arc)) (hyperarcs : List HyperArc) : Adjacency :=
  hyperarcs.foldl addHyperArc (arcs.foldl addArc (blank slots))

/-- The tables of a graph. -/
def ofGraph (g : Graph) : Adjacency :=
  build g.nodes.cells.length g.arcs.entries g.hyperarcs.elements

end Adjacency

/-! ## The tables of a host

They are filled as those of any graph are, arc by arc. Only whether a neighbour is new is asked
of the set and not of the list. -/

/-- Pairs of keys in lexicographic order. -/
def comparePairs : NodeKey × NodeKey → NodeKey × NodeKey → Ordering :=
  compareLex (compareOn fun pair => pair.1.index) (compareOn fun pair => pair.2.index)

/-- Degree, arcs and neighbours of each node of a host. -/
structure Surroundings extends Adjacency where
  /-- The pairs of neighbours, both ways round. -/
  pairs : Std.TreeSet (NodeKey × NodeKey) comparePairs

namespace Surroundings

/-- The tables of a host without arcs and hyperarcs. -/
def blank (slots : Nat) : Surroundings := { Adjacency.blank slots with pairs := ∅ }

/-- Whether some arc joins two nodes. -/
def joined (t : Surroundings) (a b : NodeKey) : Bool := t.pairs.contains (a, b)

/-- Enters a pair of neighbours, unless it is there already. -/
def addPair (t : Surroundings) (node neighbor : NodeKey) : Surroundings :=
  if t.joined node neighbor then t
  else
    { t with
      pairs := t.pairs.insert (node, neighbor)
      neighborhoods := t.neighborhoods.modify node.index (· ++ [neighbor]) }

/-- Counts and lists an arc at its ends. -/
def addEnds (t : Surroundings) (key : ArcKey) (arc : Arc) : Surroundings :=
  { t with toAdjacency := t.toAdjacency.addEnds key arc }

/-- Enters an arc. A loop has one pair, and any other arc two. -/
def addArc (t : Surroundings) (entry : ArcKey × Arc) : Surroundings :=
  let (key, arc) := entry
  let listed := t.addEnds key arc
  match arc.source, arc.target with
  | some source, some target =>
    let forth := listed.addPair source target
    if source = target then forth else forth.addPair target source
  | _, _ => listed

/-- The tables of a host. -/
def ofGraph (g : Graph) : Surroundings :=
  let joined := g.arcs.entries.foldl addArc (blank g.nodes.cells.length)
  { joined with
    toAdjacency := g.hyperarcs.elements.foldl Adjacency.addHyperArc joined.toAdjacency }

end Surroundings

end GraphGrammar
