import GraphGrammar.Drawing
import GraphGrammar.Transform

/-!
# Places where a rule applies

An `Assignment` gives elements of a pattern their images in a host, by key; a
place in a list stands for the pattern element of that key. A `RuleOption` is
an assignment for the left-hand side of a rule together with what is needed to
apply the rule there.

An option holds keys only, so it can be looked at after the host has changed.
The elements it *consumes* are the images; options that consume no common
element are the ones that can be applied together.
-/

namespace GraphGrammar

/-- The images of the elements of a pattern. Elements without an image are
not assigned, or must not be there. -/
structure Assignment where
  nodes : List (Option NodeKey) := []
  arcs : List (Option ArcKey) := []
  hyperarcs : List (Option HyperArcKey) := []
deriving DecidableEq, Repr, Inhabited

namespace Assignment

/-- The image of a node of the pattern. -/
def node? (a : Assignment) (key : NodeKey) : Option NodeKey := (a.nodes[key.index]?).join

/-- The image of an arc of the pattern. -/
def arc? (a : Assignment) (key : ArcKey) : Option ArcKey := (a.arcs[key.index]?).join

/-- The image of a hyperarc of the pattern. -/
def hyperarc? (a : Assignment) (key : HyperArcKey) : Option HyperArcKey :=
  (a.hyperarcs[key.index]?).join

/-- The images of nodes, in the order of the pattern. -/
def nodeImages (a : Assignment) : List NodeKey := a.nodes.filterMap id

/-- The images of arcs, in the order of the pattern. -/
def arcImages (a : Assignment) : List ArcKey := a.arcs.filterMap id

/-- The images of hyperarcs, in the order of the pattern. -/
def hyperarcImages (a : Assignment) : List HyperArcKey := a.hyperarcs.filterMap id

/-- Two assignments have no image in common. -/
def disjoint (a b : Assignment) : Bool :=
  a.nodeImages.all (!b.nodeImages.contains ·)
    && a.arcImages.all (!b.arcImages.contains ·)
    && a.hyperarcImages.all (!b.hyperarcImages.contains ·)

end Assignment

/-- One way to apply a rule to a host. -/
structure RuleOption extends Assignment where
  /-- The number of the rule set that the rule belongs to. -/
  ruleSetIndex : Nat := 0
  /-- The number of the rule in its rule set. -/
  ruleNumber : Nat := 0
  /-- The number of the option in the list it was recognized into. -/
  optionNumber : Nat := 0
  /-- The numbers of the options it can be applied together with,
  ascending. -/
  confluence : List Nat := []
  /-- Where the run of L's global labels starts in those of the host, if their
  order matters. -/
  globalLabelStart : Option Nat := none
  /-- Takes positions of R to positions of the host. -/
  positionTransform : Transform Float := .identity

/-- The part of a host that an option consumes. -/
structure Location where
  host : Graph
  consumed : Assignment

namespace RuleOption

/-- Where an option is in a host. -/
def location (o : RuleOption) (host : Graph) : Location := ⟨host, o.toAssignment⟩

end RuleOption

namespace Location

/-- Whether a node is consumed. -/
def containsNode (v : Location) (key : NodeKey) : Bool := v.consumed.nodeImages.contains key

/-- Whether an arc is consumed. -/
def containsArc (v : Location) (key : ArcKey) : Bool := v.consumed.arcImages.contains key

/-- Whether a hyperarc is consumed. -/
def containsHyperArc (v : Location) (key : HyperArcKey) : Bool :=
  v.consumed.hyperarcImages.contains key

/-- The consumed nodes that are alive. -/
def nodes (v : Location) : List (NodeKey × Node) :=
  v.host.nodes.entries.filter (v.containsNode ·.1)

/-- The consumed arcs that are alive. -/
def arcs (v : Location) : List (ArcKey × Arc) :=
  v.host.arcs.entries.filter (v.containsArc ·.1)

/-- The consumed hyperarcs that are alive. -/
def hyperarcs (v : Location) : List (HyperArcKey × HyperArc) :=
  v.host.hyperarcs.entries.filter (v.containsHyperArc ·.1)

/-- The whole host with the location emphasized. -/
def dot (v : Location) : String :=
  v.host.dot
    { nodes := v.consumed.nodeImages
      arcs := v.consumed.arcImages
      hyperarcs := v.consumed.hyperarcImages }

end Location

end GraphGrammar
