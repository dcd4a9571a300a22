import GraphGrammar.Graph.Upkeep

/-!
# Edits in place

`GraphGrammar.Graph.Edit` tells what an edit makes of a graph, as a function that returns another
graph or none. A graph that is held somewhere is edited differently: its slots and its indices are
written one after the other, and an edit that stops on the way leaves behind what it wrote. The
edits are given here once more as such procedures (`InPlace`), for elements of any kind at once
where the kinds are treated alike.

Nothing takes a change back when a procedure fails, since a failure returns the graph as it has
become. That a refused edit changes nothing is therefore owed to the order in which a procedure
asks and writes, and so is that its functions and its procedures come to the same. Both are
proved in `GraphGrammar.Proofs.InPlace`.

All edits are then put together in one type of data (`Edit`), so that one can speak of any sequence
of them, and `Graph.perform` carries one out.
-/

namespace GraphGrammar

open Attributed

/-! ## Elements of any kind

What is done to nodes, arcs and hyperarcs alike is written once, for elements of a kind. -/

/-- The elements of a kind. With this the three kinds of a graph can be spoken of at once, and an
edit that is the same for all kinds is written once. -/
def Element : Kind → Type
  | .node => Node
  | .arc => Arc
  | .hyperarc => HyperArc

instance : (κ : Kind) → Attributed (Element κ)
  | .node => inferInstanceAs (Attributed Node)
  | .arc => inferInstanceAs (Attributed Arc)
  | .hyperarc => inferInstanceAs (Attributed HyperArc)

namespace Graph

/-- The elements of a graph that are of a kind. -/
def registry (g : Graph) : (κ : Kind) → Registry κ (Element κ)
  | .node => g.nodes
  | .arc => g.arcs
  | .hyperarc => g.hyperarcs

/-- Puts other elements of a kind in the place of those that the graph has. -/
def withRegistry (g : Graph) : (κ : Kind) → Registry κ (Element κ) → Graph
  | .node, nodes => { g with nodes }
  | .arc, arcs => { g with arcs }
  | .hyperarc, hyperarcs => { g with hyperarcs }

/-- Refuses an element that refers to a node that is not alive. A node refers to none. -/
def checkReferences (g : Graph) : (κ : Kind) → Element κ → Outcome GraphError Unit
  | .node, _ => .ok ()
  | .arc, arc => g.checkEnds arc
  | .hyperarc, hyperarc => g.checkMembers hyperarc

end Graph

/-! ## Procedures

A procedure is made of two sorts of steps: it asks something, which may fail, or it writes, which
may not. In which order they come decides what a procedure leaves behind that fails, so each of
the procedures below has its steps in the order in which they are done. -/

/-- **A procedure on a graph that is changed in place.** The graph is beneath the failure: a
procedure that fails still leaves a graph behind, the one that it had made by then. -/
abbrev InPlace (α : Type) : Type := ExceptT (Report GraphError) (StateM Graph) α

namespace InPlace

variable {α : Type} (κ : Kind)

/-- What a procedure returns, and the graph that it leaves behind. -/
def run (procedure : InPlace α) (g : Graph) : Outcome GraphError α × Graph :=
  StateT.run (ExceptT.run procedure) g

/-- Asks something of the graph as it is now. Whatever the answer is, the graph stays as it is;
this is the only way in which a procedure fails. -/
def ask (question : Graph → Outcome GraphError α) : InPlace α := do
  match question (← get) with
  | .error failure => throw failure
  | .ok a => return a

/-- Looks at the elements of a kind as they are now. -/
def look (view : Registry κ (Element κ) → α) : InPlace α := ask fun g => .ok (view (g.registry κ))

/-- Fails with a cause if the elements of a kind give rise to it. -/
def refuseIf (cause : GraphError) (refused : Registry κ (Element κ) → Bool) : InPlace Unit :=
  ask fun g => if refused (g.registry κ) then .fail cause else .ok ()

/-- Writes to the elements of a kind. Writing is the only way in which a procedure changes the
graph, and it cannot fail. -/
def write (f : Registry κ (Element κ) → Registry κ (Element κ)) : InPlace Unit :=
  modify fun g => g.withRegistry κ (f (g.registry κ))

/-- Enters a name in the index. -/
def enterName (name : Name) (key : Key κ) : InPlace Unit :=
  write κ fun r => { r with names := r.names.insert name key }

/-- Strikes a name off the index. -/
def strikeName (name : Name) : InPlace Unit :=
  write κ fun r => { r with names := r.names.erase name }

/-! ### Adding

A name that is taken is refused before the references are looked at. Where it is numbered
instead, the references are all that there is to refuse. -/

/-- Gives an element the next slot, with nothing asked. The index is written first and the slot
after it. -/
def place (a : Element κ) : InPlace (Key κ) := do
  let key ← look κ (·.nextKey)
  enterName κ (nameOf a) key
  write κ fun r => { r with cells := r.cells ++ [some a] }
  return key

/-- Adds an element under its own name. -/
def add (a : Element κ) : InPlace (Key κ) := do
  refuseIf κ (.duplicateName κ (nameOf a)) (·.names.contains (nameOf a))
  ask (·.checkReferences κ a)
  place κ a

/-- Adds an element, numbering its name if it is in use. The name that is made up is not asked
for again: it is free when it is looked for, and nothing is written in between. -/
def addUnique (a : Element κ) : InPlace (Key κ) := do
  ask (·.checkReferences κ a)
  let name ← look κ fun r => uniqueName r.names (nameOf a)
  place κ (renamed a name)

/-! ### Removing

To remove a node takes more than one write: the arcs and hyperarcs at it are changed after the
node has gone. -/

/-- Removes an element, if it is there, and whatever refers to it is not looked at. -/
def remove (key : Key κ) : InPlace (Option (Element κ)) := do
  match ← look κ (·.get? key) with
  | none => return none
  | some a =>
    write κ fun r => { r with cells := r.cells.set key.index none }
    strikeName κ (nameOf a)
    return some a

/-- Removes a node, if it is there, and then detaches the arcs and the hyperarcs from it. An end
at the node dangles afterwards, and the node is dropped from every list of members. -/
def removeNode (key : NodeKey) : InPlace (Option Node) := do
  match ← remove .node key with
  | none => return none
  | some node =>
    write .arc fun arcs => arcs.mapElements (Arc.detach · key)
    write .hyperarc fun hyperarcs => hyperarcs.mapElements (HyperArc.detach · key)
    return some node

/-! ### Changing

An element is changed in its slot. If it has to be there, that is asked before, and so is whether
a node is alive that it is to be attached to. -/

/-- Changes an element, if it is there, and leaves the index alone. -/
def change (key : Key κ) (f : Element κ → Element κ) : InPlace Unit :=
  write κ (·.modify key f)

/-- Changes an element that has to be there. -/
def changeLive (key : Key κ) (f : Element κ → Element κ) : InPlace Unit := do
  refuseIf κ (.unknown κ key) (!·.contains key)
  change κ key f

/-- Fails if a node is not alive. Both edits that attach something to a node begin with this. -/
def requireNode (node : NodeKey) : InPlace Unit :=
  refuseIf .node (.unknown .node node) (!·.contains node)

/-- Attaches an end of an arc to a live node, or lets it dangle. A node that is not alive is
refused before the arc is looked for. -/
def setArcEnd (key : ArcKey) (e : ArcEnd) (node : Option NodeKey) : InPlace Unit := do
  node.forM requireNode
  changeLive .arc key (Arc.withEnd · e node)

/-- Makes a live node the last member of a hyperarc, unless it is a member. -/
def addToHyperArc (key : HyperArcKey) (node : NodeKey) : InPlace Unit := do
  requireNode node
  changeLive .hyperarc key (HyperArc.attach · node)

/-- Drops a node from the members of a hyperarc. -/
def removeFromHyperArc (key : HyperArcKey) (node : NodeKey) : InPlace Unit :=
  changeLive .hyperarc key (HyperArc.detach · node)

/-! ### Renaming

This is the one edit with three writes: the old name is struck off, the new one entered, and the
element told. -/

/-- Renames an element. The index is changed before the element is. An element that has the name
already is left alone, and then it does not matter that the name is in use. -/
def rename (key : Key κ) (name : Name) : InPlace Unit := do
  match ← look κ (·.get? key) with
  | none => refuseIf κ (.unknown κ key) fun _ => true
  | some a =>
    if nameOf a = name then return ()
    else do
      refuseIf κ (.duplicateName κ name) (·.names.contains name)
      strikeName κ (nameOf a)
      enterName κ name key
      change κ key (renamed · name)

/-- Builds the indices anew, kind by kind. What the indices said before is not looked at. -/
def repairNames : InPlace Unit := do
  write .node fun nodes => nodes.repair.1
  write .arc fun arcs => arcs.repair.1
  write .hyperarc fun hyperarcs => hyperarcs.repair.1

end InPlace

/-! ## Edits as data

A history of edits is a list, so an edit is a value here and `Edit.procedure` says what it does.
The keys that it gives out and makes void are told beside the graph, as a caller sees them. -/

/-- Refers to an element of any kind. The keys that are put down for an edit are of any kind, and
a list of them cannot have a kind in its type. -/
structure Ref where
  kind : Kind
  index : Nat
deriving DecidableEq, Repr

/-- The reference that a key of a kind is. -/
def Key.ref {κ : Kind} (key : Key κ) : Ref := ⟨κ, key.index⟩

/-- The key of a kind that a reference is. -/
def Ref.key? (κ : Kind) (ref : Ref) : Option (Key κ) :=
  if ref.kind = κ then some ⟨ref.index⟩ else none

/-- An edit of a graph. Attributes are edited by a function that leaves alone what is not an
attribute: the name, which belongs to the index as well, and the ends or members. -/
inductive Edit where
  | addNode (node : Node)
  | addNodeUnique (node : Node)
  | addArc (arc : Arc)
  | addArcUnique (arc : Arc)
  | addHyperArc (hyperarc : HyperArc) (distinct : hyperarc.members.Nodup)
  | addHyperArcUnique (hyperarc : HyperArc) (distinct : hyperarc.members.Nodup)
  | removeNode (key : NodeKey)
  | removeArc (key : ArcKey)
  | removeHyperArc (key : HyperArcKey)
  /-- Edits the attributes of a node. -/
  | changeNode (key : NodeKey) (f : Node → Node)
      (keeps : ∀ node, (f node).name = node.name)
  | changeArc (key : ArcKey) (f : Arc → Arc)
      (keeps : ∀ arc, (f arc).name = arc.name ∧
        (f arc).source = arc.source ∧ (f arc).target = arc.target)
  | changeHyperArc (key : HyperArcKey) (f : HyperArc → HyperArc)
      (keeps : ∀ hyperarc, (f hyperarc).name = hyperarc.name ∧
        (f hyperarc).members = hyperarc.members)
  | setArcEnd (key : ArcKey) (e : ArcEnd) (node : Option NodeKey)
  | addToHyperArc (key : HyperArcKey) (node : NodeKey)
  | removeFromHyperArc (key : HyperArcKey) (node : NodeKey)
  | renameNode (key : NodeKey) (name : Name)
  | renameArc (key : ArcKey) (name : Name)
  | renameHyperArc (key : HyperArcKey) (name : Name)
  | repairNames

namespace Edit

/-- The keys that an edit gives out and makes void. -/
structure Keys where
  /-- The key given to the element that was added. -/
  issued : Option Ref := none
  /-- The key of the element that was removed. -/
  removed : Option Ref := none

namespace Keys

/-- An element was added. -/
def issue {κ : Kind} (key : Key κ) : Keys := { issued := some key.ref }

/-- An element was removed, if it was there. -/
def void {κ : Kind} {α : Type} (key : Key κ) (removed : Option α) : Keys :=
  { removed := removed.map fun _ => key.ref }

end Keys

/-- The procedure that an edit is. -/
def procedure : Edit → InPlace Keys
  | addNode node => return .issue (← InPlace.add .node node)
  | addNodeUnique node => return .issue (← InPlace.addUnique .node node)
  | addArc arc => return .issue (← InPlace.add .arc arc)
  | addArcUnique arc => return .issue (← InPlace.addUnique .arc arc)
  | addHyperArc hyperarc _ => return .issue (← InPlace.add .hyperarc hyperarc)
  | addHyperArcUnique hyperarc _ => return .issue (← InPlace.addUnique .hyperarc hyperarc)
  | removeNode key => return .void key (← InPlace.removeNode key)
  | removeArc key => return .void key (← InPlace.remove .arc key)
  | removeHyperArc key => return .void key (← InPlace.remove .hyperarc key)
  | changeNode key f _ => do InPlace.change .node key f; return {}
  | changeArc key f _ => do InPlace.change .arc key f; return {}
  | changeHyperArc key f _ => do InPlace.change .hyperarc key f; return {}
  | setArcEnd key e node => do InPlace.setArcEnd key e node; return {}
  | addToHyperArc key node => do InPlace.addToHyperArc key node; return {}
  | removeFromHyperArc key node => do InPlace.removeFromHyperArc key node; return {}
  | renameNode key name => do InPlace.rename .node key name; return {}
  | renameArc key name => do InPlace.rename .arc key name; return {}
  | renameHyperArc key name => do InPlace.rename .hyperarc key name; return {}
  | repairNames => do InPlace.repairNames; return {}

/-- The graph after an edit, and the keys concerned or the reason why the edit was refused. Both
are there in either case: that the graph is the one before if the edit was refused is not a
matter of how this is defined. -/
structure Performance where
  graph : Graph
  result : Outcome GraphError Keys

end Edit

/-- Performs an edit in place. -/
def Graph.perform (g : Graph) (e : Edit) : Edit.Performance :=
  let (result, graph) := e.procedure.run g
  ⟨graph, result⟩

end GraphGrammar
