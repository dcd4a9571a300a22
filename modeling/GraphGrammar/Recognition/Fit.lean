import GraphGrammar.Recognition.Adjacency
import GraphGrammar.Rule.Basic
import GraphGrammar.RuleOption

/-!
# Which host element fits which pattern element

The pattern is the left-hand side of a rule. Its elements are assigned one
after another, nodes before arcs before hyperarcs, so when an arc is assigned
its attached ends have images. An element fits if it is not an image already,
passes the condition on the pattern element, and is connected to the images
assigned so far the way the pattern element is.

Positive elements are assigned first. What is at a pattern node is then told
by its positive arcs and hyperarcs alone; once the negative elements are
looked for, by all of them.

`Occurrence.extensions` lists the assignments that extend an assignment by one
element, in the order in which they are tried. The candidates it goes through
are the elements next to an image if the element is connected to one, and all
elements of the host otherwise.
-/

namespace GraphGrammar

/-- Whether the positive elements of a pattern are being assigned or, after
those, the negative ones. -/
inductive Phase where
  | positive
  | negative
deriving DecidableEq, Repr

/-- An element of a pattern to be assigned. -/
inductive PatternElement where
  | node (key : NodeKey)
  | arc (key : ArcKey)
  | hyperarc (key : HyperArcKey)
deriving DecidableEq, Repr

/-- The search for occurrences of the left-hand side of a rule in a host. -/
structure Occurrence where
  host : Graph
  rule : GrammarRule
  /-- The tables of the host. -/
  surroundings : Surroundings
  /-- The tables of the pattern without its negative arcs and hyperarcs. -/
  positive : Adjacency
  /-- The tables of the whole pattern. -/
  whole : Adjacency

namespace Occurrence

/-- The search for a rule in a host. -/
def ofRule (host : Graph) (rule : GrammarRule) : Occurrence where
  host := host
  rule := rule
  surroundings := .ofGraph host
  positive :=
    .build rule.l.nodes.cells.length (rule.l.arcs.entries.filter (!rule.isNegativeArc ·.1))
      ((rule.l.hyperarcs.entries.filter (!rule.isNegativeHyperArc ·.1)).map Prod.snd)
  whole := .ofGraph rule.l

/-- The tables of the pattern that count in a phase. -/
def pattern (s : Occurrence) : Phase → Adjacency
  | .positive => s.positive
  | .negative => s.whole

/-! ## Nodes

A node is compared with few host nodes if a neighbour of it has an image already, and with all of
them otherwise. The order in which they are tried is the order in which options are found. -/

/-- The host nodes to try for a pattern node: the neighbours of the image of
the first neighbour that has one, or all nodes. -/
def nodeCandidates (s : Occurrence) (phase : Phase) (a : Assignment) (key : NodeKey) :
    List NodeKey :=
  match (((s.pattern phase).neighbors key).filter (· != key)).findSome? a.node? with
  | some image => s.surroundings.neighbors image
  | none => s.host.nodes.keys

/-- Whether a host node is joined to the images of the neighbours of a pattern
node, and to itself if the pattern node is. -/
def nodeConnects (s : Occurrence) (phase : Phase) (a : Assignment) (key image : NodeKey) : Bool :=
  ((s.pattern phase).neighbors key).all fun neighbor =>
    match if neighbor = key then some image else a.node? neighbor with
    | some other => s.surroundings.joined image other
    | none => true

/-- Whether a host node passes the condition on a pattern node. -/
def nodePasses (s : Occurrence) (phase : Phase) (key image : NodeKey) (node host : Node) : Bool :=
  let condition := s.rule.nodeCondition key
  let wanted := (s.pattern phase).degree key
  let given := s.surroundings.degree image
  condition.admits node.toAttributes host.toAttributes
    && (!condition.restrictToType || node.typeTag == host.typeTag)
    && (if condition.strictDegree then given == wanted else wanted ≤ given)

/-- Whether a host node can be the image of a pattern node. -/
def nodeFits (s : Occurrence) (phase : Phase) (a : Assignment) (key image : NodeKey) : Bool :=
  !a.nodeImages.contains image
    && (match s.rule.l.node? key, s.host.node? image with
      | some node, some host => s.nodePasses phase key image node host
      | _, _ => false)
    && s.nodeConnects phase a key image

/-! ## Arcs

By the time an arc is assigned its ends have images, so it is compared with the arcs at one of
them only. An arc that dangles at both ends is compared with all. -/

/-- The host arcs to try for a pattern arc: those at the image of its source,
or of its target, or all arcs. -/
def arcCandidates (s : Occurrence) (a : Assignment) (key : ArcKey) : List ArcKey :=
  match s.rule.l.arc? key with
  | none => []
  | some arc =>
    match (arc.source.bind a.node?).or (arc.target.bind a.node?) with
    | some image => s.surroundings.incident image
    | none => s.host.arcs.keys

/-- Whether an end of a host arc is where a pattern arc wants it. Where the
pattern arc dangles, any end will do unless the condition says otherwise. -/
def endFits (condition : ArcCondition) (wanted given : Option NodeKey) : Bool :=
  match wanted with
  | some _ => given == wanted
  | none => !condition.danglingMeansDangling || given.isNone

/-- Whether a host arc joins the images of the ends of a pattern arc. An
oriented pattern arc needs a directed host arc that points the same way or
both ways; one without orientation can be met back to front. -/
def endsFit (condition : ArcCondition) (a : Assignment) (arc host : Arc) : Bool :=
  let source := arc.source.bind a.node?
  let target := arc.target.bind a.node?
  let forward := endFits condition source host.source && endFits condition target host.target
  let backward := endFits condition source host.target && endFits condition target host.source
  if arc.isOriented then host.directed && (forward || (host.doublyDirected && backward))
  else forward || backward

/-- Whether a host arc can be the image of a pattern arc. -/
def arcFits (s : Occurrence) (a : Assignment) (key image : ArcKey) : Bool :=
  let condition := s.rule.arcCondition key
  !a.arcImages.contains image
    && (match s.rule.l.arc? key, s.host.arc? image with
      | some arc, some host =>
        condition.admits arc.toAttributes host.toAttributes
          && (!condition.directionIsEqual
            || (arc.directed == host.directed && arc.doublyDirected == host.doublyDirected))
          && endsFit condition a arc host
      | _, _ => false)

/-! ## Hyperarcs

As for arcs, one image of a member narrows down what has to be tried. -/

/-- The host hyperarcs to try for a pattern hyperarc: those that contain the
image of its first member, or all hyperarcs. -/
def hyperarcCandidates (s : Occurrence) (a : Assignment) (key : HyperArcKey) : List HyperArcKey :=
  match ((s.rule.l.hyperarc? key).bind (·.members.head?)).bind a.node? with
  | some image => s.host.hyperarcsOf image
  | none => s.host.hyperarcs.keys

/-- Whether a host hyperarc can be the image of a pattern hyperarc. -/
def hyperarcFits (s : Occurrence) (a : Assignment) (key image : HyperArcKey) : Bool :=
  let condition := s.rule.hyperarcCondition key
  !a.hyperarcImages.contains image
    && (match s.rule.l.hyperarc? key, s.host.hyperarc? image with
      | some hyperarc, some host =>
        condition.admits hyperarc.toAttributes host.toAttributes
          && (!condition.strictMemberCount || hyperarc.members.length == host.members.length)
          && hyperarc.members.all fun member => (a.node? member).any host.contains
      | _, _ => false)

/-! ## One element further

The three kinds side by side. What is tried for an element is tried in the order of its
candidates. -/

/-- The assignments that give one more pattern element an image, in the order
in which they are tried. -/
def extensions (s : Occurrence) (phase : Phase) (a : Assignment) :
    PatternElement → List Assignment
  | .node key =>
    ((s.nodeCandidates phase a key).filter (s.nodeFits phase a key)).map fun image =>
      { a with nodes := a.nodes.set key.index (some image) }
  | .arc key =>
    ((s.arcCandidates a key).filter (s.arcFits a key)).map fun image =>
      { a with arcs := a.arcs.set key.index (some image) }
  | .hyperarc key =>
    ((s.hyperarcCandidates a key).filter (s.hyperarcFits a key)).map fun image =>
      { a with hyperarcs := a.hyperarcs.set key.index (some image) }

end Occurrence

end GraphGrammar
