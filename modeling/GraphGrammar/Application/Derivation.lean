import GraphGrammar.Application.Check
import GraphGrammar.Diagnostic
import GraphGrammar.Graph.Edit

/-!
# A host on its way through an application

Applying a rule changes the host step by step. A `Derivation` is the host as
it is after some of the steps together with the account of what was changed.
Where an edit of the host is refused, the derivation is `Interrupted`: it
keeps the host as far as it got.
-/

namespace GraphGrammar

/-- What an application changed, by host key. -/
structure ApplyReport where
  removedNodes : List NodeKey := []
  removedArcs : List ArcKey := []
  removedHyperArcs : List HyperArcKey := []
  addedNodes : List NodeKey := []
  addedArcs : List ArcKey := []
  addedHyperArcs : List HyperArcKey := []
  diagnostics : List Diagnostic := []
deriving DecidableEq, Repr

/-- A host after some steps, and what they changed. -/
structure Derivation where
  host : Graph
  report : ApplyReport := {}

/-- A host after some steps, the next of which was refused. -/
structure Interrupted where
  host : Graph
  failure : Report ApplyError

namespace Derivation

/-- An edit of a host, as a step of a derivation. -/
def edit {α : Type} (host : Graph) (outcome : Outcome GraphError α) : Except Interrupted α :=
  outcome.mapError fun failure => ⟨host, failure.supersede ApplyError.graph⟩

/-- Attaches an end of an arc of a host, as a step of a derivation. -/
def setEnd (host : Graph) (key : ArcKey) (e : ArcEnd) (node : Option NodeKey) :
    Except Interrupted Graph :=
  edit host (host.setArcEnd key e node)

/-! ## Steps that keep account

Each of these edits the host and puts down in the report what it added or removed, so the two do
not get out of step. -/

/-- Removes a node, if it is alive. -/
def removeNode (d : Derivation) (key : NodeKey) : Derivation :=
  match d.host.removeNode key with
  | none => d
  | some (_, host) =>
    { host, report := { d.report with removedNodes := d.report.removedNodes ++ [key] } }

/-- Removes an arc, if it is alive. -/
def removeArc (d : Derivation) (key : ArcKey) : Derivation :=
  match d.host.removeArc key with
  | none => d
  | some (_, host) =>
    { host, report := { d.report with removedArcs := d.report.removedArcs ++ [key] } }

/-- Removes a hyperarc, if it is alive. -/
def removeHyperArc (d : Derivation) (key : HyperArcKey) : Derivation :=
  match d.host.removeHyperArc key with
  | none => d
  | some (_, host) =>
    { host, report := { d.report with removedHyperArcs := d.report.removedHyperArcs ++ [key] } }

/-- Adds a node, and tells its key. -/
def addNode (d : Derivation) (node : Node) : NodeKey × Derivation :=
  let (key, host) := d.host.addNodeUnique node
  (key, { host, report := { d.report with addedNodes := d.report.addedNodes ++ [key] } })

/-- Adds an arc. -/
def addArc (d : Derivation) (arc : Arc) : Except Interrupted Derivation := do
  let (key, host) ← edit d.host (d.host.addArcUnique arc)
  return { host, report := { d.report with addedArcs := d.report.addedArcs ++ [key] } }

/-- Adds a hyperarc. -/
def addHyperArc (d : Derivation) (hyperarc : HyperArc) : Except Interrupted Derivation := do
  let (key, host) ← edit d.host (d.host.addHyperArcUnique hyperarc)
  return { host, report := { d.report with addedHyperArcs := d.report.addedHyperArcs ++ [key] } }

/-- Changes the host without adding or removing anything. -/
def mapHost (d : Derivation) (f : Graph → Graph) : Derivation := { d with host := f d.host }

/-- Changes the host by a step that can be refused and adds or removes
nothing. -/
def mapHostM (d : Derivation) (f : Graph → Except Interrupted Graph) :
    Except Interrupted Derivation := do
  return { d with host := ← f d.host }

/-- Reports something. -/
def diagnose (d : Derivation) (diagnostic : Diagnostic) : Derivation :=
  { d with report := { d.report with diagnostics := d.report.diagnostics ++ [diagnostic] } }

end Derivation

end GraphGrammar
