import GraphGrammar.Graph.Basic

/-!
# Edits of a graph

Adding, removing, reconnecting and renaming elements. An edit that could break
the invariant is refused and returns no graph: a name that is in use, an end
or a member that is not alive. The `Unique` forms number a name that is in use
instead of refusing it.

Removing a node never refuses. It leaves the arcs at the node with that end
dangling and drops the node from every member list.

The checks are made in a fixed order, name before references, and the failure names the first
thing that is wrong. Where an edit is refused there is no graph to be returned, so these
functions by themselves cannot leave a graph half edited; that the edits can be carried out in
place without doing so either is proved in `GraphGrammar.Proofs.InPlace`.
-/

namespace GraphGrammar

namespace Graph

/-! ## Adding

An edit leads to the next graph or is refused with the reason. Adding under a given name is
refused if the name is taken, and adding with numbering is not. -/

/-- Refuses an arc with an end that is not alive, naming the first one. The first one in the
order of the ends, source before target. -/
def checkEnds (g : Graph) (arc : Arc) : Outcome GraphError Unit :=
  match arc.ends.find? (!g.hasNode ·) with
  | none => .ok ()
  | some node =>
    let name := arc.name
    (Outcome.fail (.unknown .node node)).note s!"while adding arc `{name}`"

/-- Refuses a hyperarc with a member that is not alive, naming the first
one. -/
def checkMembers (g : Graph) (hyperarc : HyperArc) : Outcome GraphError Unit :=
  match hyperarc.members.find? (!g.hasNode ·) with
  | none => .ok ()
  | some node =>
    let name := hyperarc.name
    (Outcome.fail (.unknown .node node)).note s!"while adding hyperarc `{name}`"

/-- Adds a node under its own name. -/
def addNode (g : Graph) (node : Node) : Outcome GraphError (NodeKey × Graph) :=
  if g.nodes.names.contains node.name then .fail (.duplicateName .node node.name)
  else
    let (key, nodes) := g.nodes.push node
    .ok (key, { g with nodes })

/-- Adds a node, numbering its name if it is in use. -/
def addNodeUnique (g : Graph) (node : Node) : NodeKey × Graph :=
  let (key, nodes) := g.nodes.pushUnique node
  (key, { g with nodes })

/-- Adds an arc under its own name. -/
def addArc (g : Graph) (arc : Arc) : Outcome GraphError (ArcKey × Graph) :=
  if g.arcs.names.contains arc.name then .fail (.duplicateName .arc arc.name)
  else do
    g.checkEnds arc
    let (key, arcs) := g.arcs.push arc
    return (key, { g with arcs })

/-- Adds an arc, numbering its name if it is in use. The ends are checked all the same. -/
def addArcUnique (g : Graph) (arc : Arc) : Outcome GraphError (ArcKey × Graph) := do
  g.checkEnds arc
  let (key, arcs) := g.arcs.pushUnique arc
  return (key, { g with arcs })

/-- Adds a hyperarc under its own name. -/
def addHyperArc (g : Graph) (hyperarc : HyperArc) : Outcome GraphError (HyperArcKey × Graph) :=
  if g.hyperarcs.names.contains hyperarc.name then
    .fail (.duplicateName .hyperarc hyperarc.name)
  else do
    g.checkMembers hyperarc
    let (key, hyperarcs) := g.hyperarcs.push hyperarc
    return (key, { g with hyperarcs })

/-- Adds a hyperarc, numbering its name if it is in use. -/
def addHyperArcUnique (g : Graph) (hyperarc : HyperArc) :
    Outcome GraphError (HyperArcKey × Graph) := do
  g.checkMembers hyperarc
  let (key, hyperarcs) := g.hyperarcs.pushUnique hyperarc
  return (key, { g with hyperarcs })

/-! ## Removing

Removing never fails. A key that finds nothing has nothing removed. -/

/-- Removes a node, leaving the arcs at it dangling. The key is void from then on. What referred
to it is changed in the same edit. -/
def removeNode (g : Graph) (key : NodeKey) : Option (Node × Graph) :=
  (g.nodes.erase key).map fun (node, nodes) =>
    (node, { g with
      nodes
      arcs := g.arcs.mapElements (·.detach key)
      hyperarcs := g.hyperarcs.mapElements (·.detach key) })

/-- Removes an arc. -/
def removeArc (g : Graph) (key : ArcKey) : Option (Arc × Graph) :=
  (g.arcs.erase key).map fun (arc, arcs) => (arc, { g with arcs })

/-- Removes a hyperarc. -/
def removeHyperArc (g : Graph) (key : HyperArcKey) : Option (HyperArc × Graph) :=
  (g.hyperarcs.erase key).map fun (hyperarc, hyperarcs) => (hyperarc, { g with hyperarcs })

/-! ## Changing attributes

These change an element in place, whatever becomes of its name; the index is
left alone. -/

/-- Changes a node. -/
def modifyNode (g : Graph) (key : NodeKey) (f : Node → Node) : Graph :=
  { g with nodes := g.nodes.modify key f }

/-- Changes an arc. -/
def modifyArc (g : Graph) (key : ArcKey) (f : Arc → Arc) : Graph :=
  { g with arcs := g.arcs.modify key f }

/-- Changes a hyperarc. -/
def modifyHyperArc (g : Graph) (key : HyperArcKey) (f : HyperArc → HyperArc) : Graph :=
  { g with hyperarcs := g.hyperarcs.modify key f }

/-! ## Reconnecting and renaming

A key that refers to nothing is refused here, while the removal of what is not there is not: a
removal has its result already, and these edits have nothing to work on. -/

/-- Attaches an end of an arc to a live node, or lets it dangle. A dangling end is not checked
for, since there is nothing that could be gone. -/
def setArcEnd (g : Graph) (key : ArcKey) (e : ArcEnd) (node : Option NodeKey) :
    Outcome GraphError Graph :=
  match node.filter (!g.hasNode ·) with
  | some dead => .fail (.unknown .node dead)
  | none =>
    if g.arcs.contains key then .ok (g.modifyArc key (·.withEnd e node))
    else .fail (.unknown .arc key)

/-- Makes a live node the last member of a hyperarc, unless it is a member. -/
def addToHyperArc (g : Graph) (key : HyperArcKey) (node : NodeKey) : Outcome GraphError Graph :=
  if !g.hasNode node then .fail (.unknown .node node)
  else if g.hyperarcs.contains key then .ok (g.modifyHyperArc key (·.attach node))
  else .fail (.unknown .hyperarc key)

/-- Drops a node from the members of a hyperarc. -/
def removeFromHyperArc (g : Graph) (key : HyperArcKey) (node : NodeKey) :
    Outcome GraphError Graph :=
  if g.hyperarcs.contains key then .ok (g.modifyHyperArc key (·.detach node))
  else .fail (.unknown .hyperarc key)

/-- Renames a node. -/
def renameNode (g : Graph) (key : NodeKey) (name : Name) : Outcome GraphError Graph := do
  return { g with nodes := ← g.nodes.rename key name }

/-- Renames an arc. -/
def renameArc (g : Graph) (key : ArcKey) (name : Name) : Outcome GraphError Graph := do
  return { g with arcs := ← g.arcs.rename key name }

/-- Renames a hyperarc. -/
def renameHyperArc (g : Graph) (key : HyperArcKey) (name : Name) : Outcome GraphError Graph := do
  return { g with hyperarcs := ← g.hyperarcs.rename key name }

end Graph

end GraphGrammar
