import GraphGrammar.Application.Deletion
import GraphGrammar.Application.Update

/-!
# Reattaching free ends

Each free end is offered to the embedding rules in order. The first rule that
admits it attaches the end to the image of its node of R. Later rules that
admit it get a copy of the arc each, as long as every rule before allows that.
An end that no rule admits dangles, and that is reported.

An arc that lost both ends has no neighbour, its ends are attached one by one,
and it is never copied. An arc that lost one end may be turned around to honour
the direction an embedding rule asks for.
-/

namespace GraphGrammar

namespace Reattachment

/-- The ends of an arc, source first. -/
abbrev Ends : Type := Option NodeKey × Option NodeKey

/-- The ends that an arc gets when a free end is attached to a node. -/
def attachedEnds (e : EmbeddingRule) (arc : Arc) (freed : ArcEnd) (otherFreed : Bool)
    (target : NodeKey) : Ends :=
  if otherFreed then
    match freed with
    | .source => (some target, arc.target)
    | .target => (arc.source, some target)
  else
    let other := arc.atEnd freed.opposite
    match e.newDirection, freed with
    | .into, _ | .any, .target => (other, some target)
    | .outOf, _ | .any, .source => (some target, other)

/-- Whether an arc is directed once an embedding rule has attached it. -/
def attachedDirected (e : EmbeddingRule) (arc : Arc) : Bool :=
  arc.directed || e.newDirection != .any

/-- The embedding rules up to the first one that does not let later ones have
a copy. -/
def takeDuplicating : List (EmbeddingRule × NodeKey) → List (EmbeddingRule × NodeKey)
  | [] => []
  | (e, target) :: rest =>
    if e.allowDuplication then (e, target) :: takeDuplicating rest else [(e, target)]

/-- The embedding rules that admit a free end, each with the image of its node
of R. -/
def admitting (host : Graph) (rule : GrammarRule) (images : Update.NodeImages) (arc : Arc)
    (free : FreeEnd) (otherFreed : Bool) : List (EmbeddingRule × NodeKey) :=
  let other := if otherFreed then none else arc.atEnd free.freed.opposite
  let neighborLabels := (other.bind host.node?).map (·.labels)
  let deleted := (rule.l.node? free.lNode).map (·.name)
  let admits := fun e : EmbeddingRule =>
    (e.lNode.isNone || e.lNode == deleted)
      && e.admits arc.labels neighborLabels (.atEnd free.freed) arc.isOriented
  (rule.embeddingRules.filter admits).filterMap fun e =>
    ((rule.r.nodes.find? e.rNode).bind (images.lookup ·)).map (e, ·)

/-- Attaches a free end as an embedding rule says. -/
def attach (host : Graph) (arc : Arc) (free : FreeEnd) (otherFreed : Bool) (e : EmbeddingRule)
    (target : NodeKey) : Except Interrupted Graph := do
  let (source, target) := attachedEnds e arc free.freed otherFreed target
  let half ← Derivation.setEnd host free.arc .source source
  let whole ← Derivation.setEnd half free.arc .target target
  return whole.modifyArc free.arc ({ · with directed := attachedDirected e arc })

/-- Adds a copy of an arc, attached as an embedding rule says. -/
def addDuplicate (arc : Arc) (freed : ArcEnd) (d : Derivation)
    (taker : EmbeddingRule × NodeKey) : Except Interrupted Derivation :=
  let (e, target) := taker
  let (source, target) := attachedEnds e arc freed false target
  d.addArc { arc with source, target, directed := attachedDirected e arc }

/-- Offers a free end to the embedding rules. `doublyFreed` lists the arcs that
lost both ends. -/
def reattach (rule : GrammarRule) (images : Update.NodeImages) (doublyFreed : List ArcKey)
    (d : Derivation) (free : FreeEnd) : Except Interrupted Derivation :=
  match d.host.arc? free.arc with
  | none => .ok d
  | some arc =>
    let otherFreed := doublyFreed.contains free.arc
    match admitting d.host rule images arc free otherFreed with
    | [] => .ok (d.diagnose (.danglingEnd free.arc arc.name free.freed))
    | (e, target) :: rest => do
      let attached ← d.mapHostM (attach · arc free otherFreed e target)
      if otherFreed || !e.allowDuplication then return attached
      (takeDuplicating rest).foldlM (addDuplicate arc free.freed) attached

/-- The arcs that occur in more than one free end. -/
def doublyFreed (free : List FreeEnd) : List ArcKey :=
  (free.filter fun f => 1 < free.countP (·.arc == f.arc)).map (·.arc)

/-- Offers every free end to the embedding rules. -/
def reattachAll (rule : GrammarRule) (images : Update.NodeImages) (free : List FreeEnd)
    (d : Derivation) : Except Interrupted Derivation :=
  free.foldlM (reattach rule images (doublyFreed free)) d

end Reattachment

end GraphGrammar
