import GraphGrammar.Application.Update
import GraphGrammar.Graph.Edit
import GraphGrammar.Proofs.Rewriting

/-!
# Graphs without positions

A graph is *unplaced* by putting all its nodes at the origin. Two graphs are equal up
to positions if they are equal once they are unplaced, and likewise for what contains
graphs: rules, options, rule sets, candidates.

What an operation does apart from positions is told by how it acts on unplaced graphs.
The keys, the names, the arcs and the hyperarcs of a graph do not change when it is
unplaced, and an edit of the graph commutes with it (`Graph.removeNode_unplaced`,
`Graph.addNodeUnique_unplaced`, …).

To say that two graphs are equal up to positions in this way has an advantage over a relation
between them: unplacing is a function, so what an operation does apart from positions is an
equation, and equations can be rewritten with. A relation would have to be carried through every
step, as the one for other slots is (`GraphGrammar.Proofs.Relocation`); there it cannot be
avoided, since no slots are more natural than others.
-/

namespace GraphGrammar

open Attributed

/-- The node at the origin. -/
def Node.unplaced (node : Node) : Node := { node with position := .origin }

/-! ## Graphs

Only nodes have positions. All questions about arcs, hyperarcs, names and what is alive have the
same answer. -/

namespace Graph

variable (g : Graph)

/-- The graph with its nodes at the origin. -/
def unplaced : Graph := { g with nodes := g.nodes.mapElements Node.unplaced }

@[simp] theorem arcs_unplaced : g.unplaced.arcs = g.arcs := rfl

@[simp] theorem hyperarcs_unplaced : g.unplaced.hyperarcs = g.hyperarcs := rfl

@[simp] theorem arc?_unplaced : g.unplaced.arc? = g.arc? := rfl

@[simp] theorem node?_unplaced (key : NodeKey) :
    g.unplaced.node? key = (g.node? key).map Node.unplaced := Registry.get?_mapElements _ _ _

/-- A node is alive wherever it is put. -/
@[simp] theorem hasNode_unplaced : g.unplaced.hasNode = g.hasNode :=
  funext (g.nodes.contains_mapElements Node.unplaced)

@[simp] theorem keys_unplaced : g.unplaced.nodes.keys = g.nodes.keys :=
  Registry.keys_mapElements _ _

@[simp] theorem length_cells_unplaced : g.unplaced.nodes.cells.length = g.nodes.cells.length :=
  Registry.length_cells_mapElements _ _

/-- The nodes are listed in the same order. -/
theorem entries_unplaced :
    g.unplaced.nodes.entries = g.nodes.entries.map fun (key, node) => (key, node.unplaced) :=
  Registry.entries_mapElements _ _

/-- What is asked of a node other than its position has the same answer. -/
theorem map_bind_node?_unplaced {β : Type} {f : Node → β} (h : ∀ node, f node.unplaced = f node)
    (side : Option NodeKey) :
    (side.bind g.unplaced.node?).map f = (side.bind g.node?).map f := by
  cases side with
  | none => rfl
  | some key =>
    dsimp only [Option.bind_some]
    rw [node?_unplaced, Option.map_map]
    exact congrArg (Option.map · _) (funext h)

/-- Names have nothing to do with places, and ends are compared by names. -/
@[simp] theorem nodeName?_unplaced : g.unplaced.nodeName? = g.nodeName? :=
  funext (g.map_bind_node?_unplaced fun _ => rfl)

/-- A graph that is unplaced has nothing left to be unplaced. -/
@[simp] theorem unplaced_unplaced : g.unplaced.unplaced = g.unplaced := by
  unfold unplaced Registry.mapElements
  simp only [List.map_map]
  congr 2
  refine List.map_congr_left fun cell _ => ?_
  cases cell <;> rfl

/-! ### Edits

Edits of arcs and hyperarcs do not look at nodes but for whether they are alive, so they commute
with unplacing whatever they do. -/

/-- A change of a node is taken along if it does not depend on the position; where it puts the
node is left out. -/
theorem modifyNode_unplaced (key : NodeKey) {f f' : Node → Node}
    (h : ∀ node, f' node.unplaced = (f node).unplaced) :
    g.unplaced.modifyNode key f' = (g.modifyNode key f).unplaced :=
  congrArg (fun nodes => { g with nodes }) (g.nodes.modify_mapElements key h)

/-- A node that is only moved is as it was. -/
theorem unplaced_modifyNode (key : NodeKey) {f : Node → Node}
    (h : ∀ node, (f node).unplaced = node.unplaced) :
    (g.modifyNode key f).unplaced = g.unplaced :=
  congrArg (fun nodes => { g with nodes }) (g.nodes.mapElements_modify key h)

/-- Removing a node from the unplaced graph removes it from the graph. What is returned is the
node at the origin. -/
theorem removeNode_unplaced (key : NodeKey) :
    g.unplaced.removeNode key
      = (g.removeNode key).map fun (node, after) => (node.unplaced, after.unplaced) := by
  unfold removeNode Registry.erase
  rw [show g.unplaced.nodes.get? key = (g.nodes.get? key).map Node.unplaced from
    g.node?_unplaced key, Option.map_map, Option.map_map, Option.map_map, Option.map_map]
  refine congrArg (Option.map · (g.nodes.get? key)) (funext fun node => ?_)
  unfold unplaced Registry.mapElements
  dsimp only [Function.comp_apply]
  rw [List.map_set]
  rfl

theorem removeArc_unplaced (key : ArcKey) :
    g.unplaced.removeArc key = (g.removeArc key).map fun (arc, after) => (arc, after.unplaced) := by
  unfold removeArc
  rw [Option.map_map]
  rfl

theorem removeHyperArc_unplaced (key : HyperArcKey) :
    g.unplaced.removeHyperArc key
      = (g.removeHyperArc key).map fun (hyperarc, after) => (hyperarc, after.unplaced) := by
  unfold removeHyperArc
  rw [Option.map_map]
  rfl

/-- **A node gets the same key and the same name wherever it is put.** -/
theorem addNodeUnique_unplaced (node : Node) :
    g.unplaced.addNodeUnique node.unplaced
      = ((g.addNodeUnique node).1, (g.addNodeUnique node).2.unplaced) := by
  have hkey : g.unplaced.nodes.nextKey = g.nodes.nextKey := congrArg Key.mk g.length_cells_unplaced
  have hcells : ∀ name, g.unplaced.nodes.cells ++ [some (renamed node.unplaced name)]
      = (g.nodes.cells ++ [some (renamed node name)]).map (·.map Node.unplaced) := by
    intro name
    rw [List.map_append]
    rfl
  unfold addNodeUnique Registry.pushUnique Registry.push
  dsimp only
  rw [hkey, hcells]
  rfl

theorem checkEnds_unplaced : g.unplaced.checkEnds = g.checkEnds := by
  unfold checkEnds
  rw [hasNode_unplaced]

theorem checkMembers_unplaced : g.unplaced.checkMembers = g.checkMembers := by
  unfold checkMembers
  rw [hasNode_unplaced]

/-- Adding an arc is refused in both graphs or in neither, in the same words. -/
theorem addArcUnique_unplaced (arc : Arc) :
    g.unplaced.addArcUnique arc = (g.addArcUnique arc).map
      fun (key, after) => (key, after.unplaced) := by
  unfold addArcUnique
  rw [checkEnds_unplaced]
  cases g.checkEnds arc <;> rfl

theorem addHyperArcUnique_unplaced (hyperarc : HyperArc) :
    g.unplaced.addHyperArcUnique hyperarc
      = (g.addHyperArcUnique hyperarc).map fun (key, after) => (key, after.unplaced) := by
  unfold addHyperArcUnique
  rw [checkMembers_unplaced]
  cases g.checkMembers hyperarc <;> rfl

/-- Attaching an end is refused in both graphs or in neither. -/
theorem setArcEnd_unplaced (key : ArcKey) (e : ArcEnd) (node : Option NodeKey) :
    g.unplaced.setArcEnd key e node = (g.setArcEnd key e node).map unplaced := by
  unfold setArcEnd
  rw [hasNode_unplaced, arcs_unplaced]
  cases node.filter (!g.hasNode ·) with
  | some dead => rfl
  | none =>
    dsimp only
    split <;> rfl

theorem addToHyperArc_unplaced (key : HyperArcKey) (node : NodeKey) :
    g.unplaced.addToHyperArc key node = (g.addToHyperArc key node).map unplaced := by
  unfold addToHyperArc
  rw [hasNode_unplaced, hyperarcs_unplaced]
  split
  · rfl
  split <;> rfl

theorem removeFromHyperArc_unplaced (key : HyperArcKey) (node : NodeKey) :
    g.unplaced.removeFromHyperArc key node = (g.removeFromHyperArc key node).map unplaced := by
  unfold removeFromHyperArc
  rw [hyperarcs_unplaced]
  split <;> rfl

end Graph

/-! ## Rules and options -/

/-- The rule with the nodes of its graphs at the origin. -/
def GrammarRule.unplaced (rule : GrammarRule) : GrammarRule :=
  { rule with l := rule.l.unplaced, k := rule.k.unplaced, r := rule.r.unplaced }

/-- The option without a say in where nodes are put. -/
def RuleOption.unplaced (o : RuleOption) : RuleOption := { o with positionTransform := .identity }

/-- An option that is unplaced has lost its transform and nothing else. -/
@[simp] theorem RuleOption.toAssignment_unplaced (o : RuleOption) :
    o.unplaced.toAssignment = o.toAssignment := rfl

namespace GrammarRule

variable (rule : GrammarRule)

@[simp] theorem l_unplaced : rule.unplaced.l = rule.l.unplaced := rfl

@[simp] theorem r_unplaced : rule.unplaced.r = rule.r.unplaced := rfl

/-- The same for rules. -/
@[simp] theorem unplaced_unplaced : rule.unplaced.unplaced = rule.unplaced := by
  unfold unplaced
  simp only [Graph.unplaced_unplaced]

/-- The context nodes are the same and in the same order. -/
theorem nodePairs_unplaced : rule.unplaced.nodePairs
    = rule.nodePairs.map fun (key, before, after) => (key, before.unplaced, after.unplaced) := by
  unfold nodePairs
  rw [l_unplaced, Graph.entries_unplaced, List.filterMap_map, List.map_filterMap]
  refine List.filterMap_congr fun ⟨key, before⟩ _ => ?_
  show Option.map _ ((rule.contextNodes.right? key).bind rule.r.unplaced.node?)
    = Option.map _ (Option.map _ ((rule.contextNodes.right? key).bind rule.r.node?))
  cases rule.contextNodes.right? key with
  | none => rfl
  | some other =>
    dsimp only [Option.bind_some]
    rw [Graph.node?_unplaced, Option.map_map, Option.map_map]
    rfl

end GrammarRule

end GraphGrammar
