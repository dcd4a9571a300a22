import GraphGrammar.Application.Derivation

/-!
# Deleting what the context leaves out

The images of the elements of L outside the context are removed, first arcs,
then hyperarcs, then nodes. A node that is removed leaves the arcs at it
dangling. Where such an arc is no image itself, the end is *free*: it is noted
together with the node of L that was to blame, for the embedding rules to look
at later.
-/

namespace GraphGrammar

/-- An end of an arc that lost its node. -/
structure FreeEnd where
  arc : ArcKey
  freed : ArcEnd
  /-- The node of L whose image was deleted. -/
  lNode : NodeKey
deriving DecidableEq, Repr

namespace Deletion

/-- The ends that a node of the host would leave free: those of the arcs at it
that are not among the matched ones. -/
def freeEnds (host : Graph) (matched : List ArcKey) (lNode image : NodeKey) : List FreeEnd :=
  host.arcs.entries.flatMap fun (arc, value) =>
    if matched.contains arc then []
    else (ArcEnd.both.filter (value.atEnd · == some image)).map (⟨arc, ·, lNode⟩)

/-- Removes the images of the arcs outside the context. -/
def deleteArcs (rule : GrammarRule) (o : RuleOption) (d : Derivation) : Derivation :=
  let outside := rule.l.arcs.keys.filter fun key => (rule.contextArcs.right? key).isNone
  (outside.filterMap o.arc?).foldl Derivation.removeArc d

/-- Removes the images of the hyperarcs outside the context. -/
def deleteHyperArcs (rule : GrammarRule) (o : RuleOption) (d : Derivation) : Derivation :=
  let outside := rule.l.hyperarcs.keys.filter fun key => (rule.contextHyperArcs.right? key).isNone
  (outside.filterMap o.hyperarc?).foldl Derivation.removeHyperArc d

/-- Removes the image of a node, noting the ends it leaves free. -/
def deleteNode (matched : List ArcKey) (state : Derivation × List FreeEnd)
    (node : NodeKey × NodeKey) : Derivation × List FreeEnd :=
  let (d, free) := state
  let (lNode, image) := node
  (d.removeNode image, free ++ freeEnds d.host matched lNode image)

/-- Removes the images of the nodes outside the context, noting the ends they
leave free. -/
def deleteNodes (rule : GrammarRule) (o : RuleOption) (d : Derivation) :
    Derivation × List FreeEnd :=
  let outside := rule.l.nodes.keys.filter fun key => (rule.contextNodes.right? key).isNone
  let images := outside.filterMap fun key => (o.node? key).map (key, ·)
  images.foldl (deleteNode o.arcImages) (d, [])

/-- Removes the images of everything outside the context. -/
def deleteAll (rule : GrammarRule) (o : RuleOption) (d : Derivation) :
    Derivation × List FreeEnd :=
  deleteNodes rule o (deleteHyperArcs rule o (deleteArcs rule o d))

end Deletion

end GraphGrammar
