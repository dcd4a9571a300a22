import GraphGrammar.Graph.Basic
import GraphGrammar.Text.Escaped

/-!
# Drawings in DOT

A graph is drawn as a Graphviz digraph. Besides the nodes there is a point for
every end of an arc that dangles and a diamond, the hub, for every hyperarc,
from which dashed lines go to the members. Nodes of the drawing are numbered
in the order in which they arise: the nodes of the graph, the points of the
arcs, the hubs.

A drawing can highlight some of the elements. `Gallery` puts several drawings
one after another.
-/

namespace GraphGrammar

/-- Elements to be drawn emphasized. -/
structure Highlight where
  nodes : List NodeKey := []
  arcs : List ArcKey := []
  hyperarcs : List HyperArcKey := []
deriving Inhabited

/-- A line of a drawing between two of its nodes. -/
structure DrawnLine where
  tail : Nat
  head : Nat
  style : String

/-- A drawing: the styles of its nodes, in order, and its lines. -/
structure Drawing where
  nodes : List String := []
  lines : List DrawnLine := []
deriving Inhabited

namespace Drawing

/-- Adds a node and tells its number. -/
def addNode (d : Drawing) (style : String) : Nat × Drawing :=
  (d.nodes.length, { d with nodes := d.nodes ++ [style] })

/-- Adds a line. -/
def addLine (d : Drawing) (tail head : Nat) (style : String) : Drawing :=
  { d with lines := d.lines ++ [⟨tail, head, style⟩] }

/-- The caption of an element: its name, and its labels if it has any. -/
def caption (a : Attributes) : String :=
  let labels := ",".intercalate a.labels.toList
  Text.escape (if labels.isEmpty then a.name else a.name ++ "|" ++ labels)

/-- The style attribute that shows a caption. -/
def captionStyle (a : Attributes) : String := "label = \"" ++ caption a ++ "\""

/-- The style that marks a highlighted arc or hyperarc. -/
def accent (highlighted : Bool) : String := if highlighted then ", color=\"blue\"" else ""

/-- The style of a node of the graph. -/
def nodeStyle (highlighted : Bool) (node : Node) : String :=
  (if highlighted then "shape=Mrecord, color=\"blue\"" else "shape=record")
    ++ ", " ++ captionStyle node.toAttributes

/-- The arrow heads of an arc. -/
def arrowHeads (arc : Arc) : String :=
  if arc.doublyDirected then "both" else if arc.directed then "forward" else "none"

/-- The node of the drawing at an end of an arc: the one of the node it is
attached to, or else a new point. -/
def endPoint (d : Drawing) (numbers : List (NodeKey × Nat)) (node : Option NodeKey) :
    Nat × Drawing :=
  match node.bind (numbers.lookup ·) with
  | some number => (number, d)
  | none => d.addNode "shape=point"

/-- Draws an arc. -/
def addArc (highlight : Highlight) (numbers : List (NodeKey × Nat)) (d : Drawing)
    (entry : ArcKey × Arc) : Drawing :=
  let (key, arc) := entry
  let (tail, d) := d.endPoint numbers arc.source
  let (head, d) := d.endPoint numbers arc.target
  d.addLine tail head
    (captionStyle arc.toAttributes ++ ", dir=" ++ arrowHeads arc
      ++ accent (highlight.arcs.contains key))

/-- Draws a hyperarc. -/
def addHyperArc (highlight : Highlight) (numbers : List (NodeKey × Nat)) (d : Drawing)
    (entry : HyperArcKey × HyperArc) : Drawing :=
  let (key, hyperarc) := entry
  let mark := accent (highlight.hyperarcs.contains key)
  let (hub, d) := d.addNode ("shape=diamond" ++ mark ++ ", " ++ captionStyle hyperarc.toAttributes)
  (hyperarc.members.filterMap (numbers.lookup ·)).foldl
    (fun d number => d.addLine hub number ("style=dashed, dir=none" ++ mark)) d

/-- The drawing of a graph. -/
def ofGraph (highlight : Highlight) (g : Graph) : Drawing :=
  let entries := g.nodes.entries
  let numbers := entries.zipIdx.map fun ((key, _), number) => (key, number)
  let nodes := entries.map fun (key, node) => nodeStyle (highlight.nodes.contains key) node
  let withArcs := g.arcs.entries.foldl (addArc highlight numbers) { nodes }
  g.hyperarcs.entries.foldl (addHyperArc highlight numbers) withArcs

/-- The statement of a node. -/
def nodeText (style : String) (number : Nat) : String :=
  s!"    {number} [ {style}]\n"

/-- The statement of a line. -/
def lineText (line : DrawnLine) : String :=
  let { tail, head, style } := line
  s!"    {tail} -> {head} [ {style}]\n"

/-- The drawing as DOT text. -/
def text (d : Drawing) : String :=
  "digraph \x7b\n" ++ String.join (d.nodes.zipIdx.map fun (style, number) => nodeText style number)
    ++ String.join (d.lines.map lineText) ++ "\x7d\n"

end Drawing

/-- The graph as DOT text. -/
def Graph.dot (g : Graph) (highlight : Highlight := {}) : String :=
  (Drawing.ofGraph highlight g).text

/-- Several drawings one after another. -/
structure Gallery where
  text : String := ""
deriving Inhabited

namespace Gallery

/-- Adds a text, after a rule if there is something before it. -/
def add (gallery : Gallery) (text : String) : Gallery :=
  if gallery.text.isEmpty then ⟨text⟩ else ⟨gallery.text ++ "\n---\n" ++ text⟩

/-- Adds the drawing of a graph. -/
def addGraph (gallery : Gallery) (g : Graph) : Gallery := gallery.add g.dot

end Gallery

end GraphGrammar
