import GraphGrammar.Application.Derivation

/-!
# Bringing the context from L to R

The images of context elements stay, and are changed by as much as their
counterparts in L and R differ: labels that only L has go and those that only
R has come, variables and type tags that differ are replaced, ends and members
that differ are reconnected. What the host has beyond L stays.

An arc of L without orientation may have been matched back to front. If R
gives it an orientation, the image is turned to lie as in L first; if not, its
ends are changed where they are.
-/

namespace GraphGrammar

/-- Changes attributes by as much as two others differ. The name stays. -/
def Attributes.moveAlong (a before after : Attributes) : Attributes where
  name := a.name
  labels := a.labels.moveAlong before.labels after.labels
  values := if before.values == after.values then a.values else after.values
  typeTag := if before.typeTag = after.typeTag then a.typeTag else after.typeTag

/-- Changes the attributes of an element by as much as those of two others
differ. -/
def Attributed.moveAlong {α : Type} [Attributed α] (a before after : α) : α :=
  withAttributes a ((attributes a).moveAlong (attributes before) (attributes after))

/-- Changes an arc by as much as two others differ in attributes and direction
flags. The flags are replaced together. -/
def Arc.moveAlong (arc before after : Arc) : Arc :=
  let moved := Attributed.moveAlong arc before after
  if before.directed = after.directed && before.doublyDirected = after.doublyDirected then moved
  else { moved with directed := after.directed, doublyDirected := after.doublyDirected }

namespace GrammarRule

/-- The context nodes of L with their counterparts. -/
def nodePairs (rule : GrammarRule) : List (NodeKey × Node × Node) :=
  rule.l.nodes.entries.filterMap fun (key, before) =>
    ((rule.contextNodes.right? key).bind rule.r.node?).map fun after => (key, before, after)

/-- The context arcs of L with their counterparts. -/
def arcPairs (rule : GrammarRule) : List (ArcKey × Arc × Arc) :=
  rule.l.arcs.entries.filterMap fun (key, before) =>
    ((rule.contextArcs.right? key).bind rule.r.arc?).map fun after => (key, before, after)

/-- The context hyperarcs of L with their counterparts. -/
def hyperarcPairs (rule : GrammarRule) : List (HyperArcKey × HyperArc × HyperArc) :=
  rule.l.hyperarcs.entries.filterMap fun (key, before) =>
    ((rule.contextHyperArcs.right? key).bind rule.r.hyperarc?).map fun after =>
      (key, before, after)

end GrammarRule

namespace Update

/-- Host nodes for nodes of R. -/
abbrev NodeImages : Type := List (NodeKey × NodeKey)

/-- Whether an arc of L was matched back to front: its source has an image and
the image of the arc does not begin there, or its source has none and the
image of the arc does not end where its target is. -/
def isReversed (host : Graph) (o : RuleOption) (key : ArcKey) (arc : Arc) : Bool :=
  match (o.arc? key).bind host.arc? with
  | none => false
  | some image =>
    match arc.source.bind o.node?, arc.target.bind o.node? with
    | some source, _ => image.source != some source
    | none, some target => image.target != some target
    | none, none => false

/-- The arcs of L that were matched back to front. -/
def reversedArcs (host : Graph) (rule : GrammarRule) (o : RuleOption) : List ArcKey :=
  (rule.l.arcs.entries.filter fun (key, arc) => isReversed host o key arc).map Prod.fst

/-- Changes the attributes of the images of context nodes. -/
def updateNodes (rule : GrammarRule) (o : RuleOption) (host : Graph) : Graph :=
  rule.nodePairs.foldl (fun g (key, before, after) =>
    match o.node? key with
    | none => g
    | some image => g.modifyNode image (Attributed.moveAlong · before after)) host

/-- Moves a node by as much as two points differ after a transform. -/
def moveNode (t : Transform Float) (before after : Point Float) (node : Node) : Node :=
  let start := t.apply before
  let goal := t.apply after
  { node with
    position :=
      { x := node.position.x + (goal.x - start.x)
        y := node.position.y + (goal.y - start.y)
        z := node.position.z + (goal.z - start.z) } }

/-- Moves the images of context nodes by as much as the nodes move from L to
R. -/
def moveNodes (rule : GrammarRule) (o : RuleOption) (host : Graph) : Graph :=
  rule.nodePairs.foldl (fun g (key, before, after) =>
    match o.node? key with
    | none => g
    | some image =>
      g.modifyNode image (moveNode o.positionTransform before.position after.position)) host

/-- Reconnects an end of the image of a context arc if L and R name different
nodes there. -/
def reconnectEnd (rule : GrammarRule) (images : NodeImages) (image : ArcKey) (before after : Arc)
    (backToFront : Bool) (host : Graph) (e : ArcEnd) : Except Interrupted Graph :=
  if rule.l.nodeName? (before.atEnd e) = rule.r.nodeName? (after.atEnd e) then .ok host
  else
    Derivation.setEnd host image (if backToFront then e.opposite else e)
      ((after.atEnd e).bind (images.lookup ·))

/-- Reconnects the image of a context arc and changes its attributes. -/
def updateArc (rule : GrammarRule) (o : RuleOption) (images : NodeImages) (reversed : List ArcKey)
    (host : Graph) (pair : ArcKey × Arc × Arc) : Except Interrupted Graph :=
  let (key, before, after) := pair
  match o.arc? key with
  | none => .ok host
  | some image =>
    match host.arc? image with
    | none => .ok host
    | some given => do
      let backToFront := reversed.contains key
      let turn := backToFront && after.isOriented
      let aligned ←
        if turn then do
          let half ← Derivation.setEnd host image .source given.target
          Derivation.setEnd half image .target given.source
        else .ok host
      let reconnected ←
        ArcEnd.both.foldlM
          (reconnectEnd rule images image before after (backToFront && !turn)) aligned
      return reconnected.modifyArc image (·.moveAlong before after)

/-- Changes the members of the image of a context hyperarc, and its
attributes. -/
def updateHyperArc (rule : GrammarRule) (o : RuleOption) (images : NodeImages) (host : Graph)
    (pair : HyperArcKey × HyperArc × HyperArc) : Except Interrupted Graph :=
  let (key, before, after) := pair
  match o.hyperarc? key with
  | none => .ok host
  | some image => do
    let named := fun (g : Graph) (h : HyperArc) => h.members.map fun m => g.nodeName? (some m)
    let leaving := before.members.filter fun m =>
      !(named rule.r after).contains (rule.l.nodeName? (some m))
    let coming := after.members.filter fun m =>
      !(named rule.l before).contains (rule.r.nodeName? (some m))
    let left ← (leaving.filterMap o.node?).foldlM
      (fun g node => Derivation.edit g (g.removeFromHyperArc image node)) host
    let joined ← (coming.filterMap (images.lookup ·)).foldlM
      (fun g node => Derivation.edit g (g.addToHyperArc image node)) left
    return joined.modifyHyperArc image (Attributed.moveAlong · before after)

/-- Brings the arcs of the context from L to R. -/
def updateArcs (rule : GrammarRule) (o : RuleOption) (images : NodeImages)
    (reversed : List ArcKey) (host : Graph) : Except Interrupted Graph :=
  rule.arcPairs.foldlM (updateArc rule o images reversed) host

/-- Brings the hyperarcs of the context from L to R. -/
def updateHyperArcs (rule : GrammarRule) (o : RuleOption) (images : NodeImages) (host : Graph) :
    Except Interrupted Graph :=
  rule.hyperarcPairs.foldlM (updateHyperArc rule o images) host

/-- Brings global labels and variables from L to R. Ordered labels are
replaced where those of L were found. -/
def updateGlobals (rule : GrammarRule) (o : RuleOption) (host : Graph) : Graph :=
  let before := rule.l
  let after := rule.r
  let globalLabels :=
    match if rule.orderedGlobalLabels then o.globalLabelStart else none with
    | some start => host.globalLabels.replaceRun before.globalLabels after.globalLabels start
    | none => host.globalLabels.moveAlong before.globalLabels after.globalLabels
  let globalVariables :=
    if before.globalVariables == after.globalVariables then host.globalVariables
    else after.globalVariables
  { host with globalLabels, globalVariables }

end Update

end GraphGrammar
