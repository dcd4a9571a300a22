import GraphGrammar.Application.Update

/-!
# Adding what R has beyond the context

The elements of R outside the context are added to the host. Their names are
numbered where they are in use, and nodes are placed by the transform of the
option. A node of R has an image in the host from then on: the image of its
counterpart in L if it belongs to the context, and the node added for it
otherwise.
-/

namespace GraphGrammar

namespace Addition

/-- Adds a node of R, or finds the image of its counterpart. -/
def addNode (rule : GrammarRule) (o : RuleOption) (state : Derivation × Update.NodeImages)
    (entry : NodeKey × Node) : Derivation × Update.NodeImages :=
  let (d, images) := state
  let (key, node) := entry
  match rule.contextNodes.left? key with
  | some lNode =>
    match o.node? lNode with
    | some image => (d, images ++ [(key, image)])
    | none => (d, images)
  | none =>
    let (image, d) := d.addNode { node with position := o.positionTransform.apply node.position }
    (d, images ++ [(key, image)])

/-- Adds the nodes of R outside the context. -/
def addNodes (rule : GrammarRule) (o : RuleOption) (d : Derivation) :
    Derivation × Update.NodeImages :=
  rule.r.nodes.entries.foldl (addNode rule o) (d, [])

/-- Adds the arcs of R outside the context. -/
def addArcs (rule : GrammarRule) (images : Update.NodeImages) (d : Derivation) :
    Except Interrupted Derivation :=
  let outside := rule.r.arcs.entries.filter fun (key, _) => (rule.contextArcs.left? key).isNone
  outside.foldlM (fun d (_, arc) => d.addArc (arc.mapEnds (images.lookup ·))) d

/-- Adds the hyperarcs of R outside the context. -/
def addHyperArcs (rule : GrammarRule) (images : Update.NodeImages) (d : Derivation) :
    Except Interrupted Derivation :=
  let outside := rule.r.hyperarcs.entries.filter fun (key, _) =>
    (rule.contextHyperArcs.left? key).isNone
  outside.foldlM (fun d (_, hyperarc) =>
    d.addHyperArc (hyperarc.mapMembers (images.lookup ·))) d

end Addition

end GraphGrammar
