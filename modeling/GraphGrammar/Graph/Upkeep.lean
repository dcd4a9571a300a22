import GraphGrammar.Graph.Edit

/-!
# Passes over a whole graph

Checking the invariant, repairing names, and copying a graph into one without
empty slots. None of them asks that the graph be well formed: a graph whose
elements were replaced behind its indices can be checked, repaired and copied
like any other.
-/

namespace GraphGrammar

namespace Graph

/-! ## Checking

The check reads elements only. What an index says is not compared with them, so a graph passes
with any index. -/

/-- Refuses the first element that repeats the name of an earlier one or that `check` refuses.
Names are compared with those of the elements before, so of two elements with one name the second
is complained of. -/
def checkAll {α : Type} [Attributed α] (κ : Kind) (check : α → Outcome GraphError Unit) :
    List α → List Name → Outcome GraphError Unit
  | [], _ => .ok ()
  | a :: rest, seen =>
    let name := Attributed.nameOf a
    if seen.contains name then .fail (.duplicateName κ name)
    else do
      check a
      checkAll κ check rest (name :: seen)

/-- Checks that names are distinct within each kind and that every end and member is a live node.
The indices are not looked at. The cause is always that the graph is inconsistent. What is wrong
in particular is in the trace. -/
def validate (g : Graph) : Outcome GraphError Unit :=
  Outcome.supersede (do
    checkAll .node (fun _ => .ok ()) g.nodes.elements []
    checkAll .arc g.checkEnds g.arcs.elements []
    checkAll .hyperarc g.checkMembers g.hyperarcs.elements []) GraphError.inconsistent

/-! ## Repairing names

Each kind is repaired by itself, in the order of its slots. -/

/-- Builds the three indices anew, numbering every name that repeats an
earlier one of its kind. Also tells how many elements were renamed. -/
def repairNames (g : Graph) : Graph × Nat :=
  let (nodes, n) := g.nodes.repair
  let (arcs, a) := g.arcs.repair
  let (hyperarcs, h) := g.hyperarcs.repair
  ({ g with nodes, arcs, hyperarcs }, n + a + h)

/-! ## Copying

A copy is built of the live elements as a new graph is built, by adding one after the other, with
the nodes they refer to renumbered. -/

/-- The key each live node gets in a copy: its rank among the live nodes. It is listed in
ascending order of both. -/
def renumbering (g : Graph) : List (NodeKey × NodeKey) :=
  g.nodes.keys.zipIdx.map fun (key, rank) => (key, ⟨rank⟩)

/-- The same elements in the same order in slots without gaps. Ends and members that are not
alive are dropped, and names that repeat an earlier one of their kind are numbered. The name of
the graph and its labels and variables are taken over as they are. -/
def copy (g : Graph) : Graph :=
  let renumbered := fun key => g.renumbering.lookup key
  { g with
    nodes := .ofElements g.nodes.elements
    arcs := .ofElements (g.arcs.elements.map (·.mapEnds renumbered))
    hyperarcs := .ofElements (g.hyperarcs.elements.map (·.mapMembers renumbered)) }

end Graph

end GraphGrammar
