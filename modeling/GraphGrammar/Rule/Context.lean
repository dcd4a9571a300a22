import GraphGrammar.Graph.Upkeep
import GraphGrammar.Rule.Basic
import GraphGrammar.Rule.Failure

/-!
# The context of a rule

The context consists of the elements that L and R share, told by their names.
It can be given, and is then checked against both sides, or derived: every
name that L and R share is a context element, and an end or a member belongs
to the context where L and R agree on it.

`relate` pairs the elements of L and R that the context names.
-/

namespace GraphGrammar

namespace Context

open Attributed

/-! ## Checking a given context

A given context may say less than L and R share, but nothing that they do not share. It is
compared with both sides in the same way, so the checks take the sides as a list. -/

/-- Both sides, L first. -/
def sides (l r : Graph) : List (Side × Graph) := [(.l, l), (.r, r)]

/-- Every context node is in L and in R. -/
def checkNode (l r : Graph) (node : Node) : Outcome RuleError Unit :=
  (sides l r).forM fun (side, g) =>
    if (g.nodes.find? node.name).isSome then .ok ()
    else .fail (.contextElementMissing side .node node.name)

/-- An end of a context arc, where it is attached, is at the node of the same
name on a side. -/
def checkEnd (k : Graph) (arc : Arc) (side : Side) (g : Graph) (other : Arc) (e : ArcEnd) :
    Outcome RuleError Unit :=
  if (arc.atEnd e).isSome && k.nodeName? (arc.atEnd e) != g.nodeName? (other.atEnd e) then
    (Outcome.fail (.contextConnectionMismatch .arc arc.name)).note
      s!"{e.word} end differs in {side.letter}"
  else .ok ()

/-- Every context arc is in L and in R, and attached there as it is in K. -/
def checkArc (l k r : Graph) (arc : Arc) : Outcome RuleError Unit :=
  (sides l r).forM fun (side, g) =>
    match g.arcs.getNamed? arc.name with
    | none => .fail (.contextElementMissing side .arc arc.name)
    | some other => ArcEnd.both.forM (checkEnd k arc side g other)

/-- Every context hyperarc is in L and in R, and contains there the members
that it has in K. -/
def checkHyperArc (l k r : Graph) (hyperarc : HyperArc) : Outcome RuleError Unit :=
  (sides l r).forM fun (side, g) =>
    match g.hyperarcs.getNamed? hyperarc.name with
    | none => .fail (.contextElementMissing side .hyperarc hyperarc.name)
    | some other =>
      let members := other.members.map fun key => g.nodeName? (some key)
      if hyperarc.members.all fun key => members.contains (k.nodeName? (some key)) then .ok ()
      else .fail (.contextConnectionMismatch .hyperarc hyperarc.name)

/-- Refuses a context whose elements are not in L and R or not connected there
as they are in the context. -/
def check (l k r : Graph) : Outcome RuleError Unit := do
  k.nodes.elements.forM (checkNode l r)
  k.arcs.elements.forM (checkArc l k r)
  k.hyperarcs.elements.forM (checkHyperArc l k r)

/-! ## Deriving a context

It has every element that both sides name, with the labels, the ends and the members that they
agree on. -/

/-- Adds a node of L to the context if R has one of its name. It keeps the
labels it has there as well. -/
def shareNode (r : Graph) (k : Graph) (node : Node) : Graph :=
  match r.nodes.getNamed? node.name with
  | none => k
  | some other => (k.addNodeUnique { node with labels := node.labels.inter other.labels }).2

/-- The context node at an end, if L and R name the same one there. -/
def sharedEnd (l r k : Graph) (arc other : Arc) (e : ArcEnd) : Option NodeKey :=
  match l.nodeName? (arc.atEnd e), r.nodeName? (other.atEnd e) with
  | some name, some name' => if name = name' then k.nodes.find? name else none
  | _, _ => none

/-- Adds an arc of L to the context if R has one of its name. -/
def shareArc (l r : Graph) (k : Graph) (arc : Arc) : Outcome RuleError Graph :=
  match r.arcs.getNamed? arc.name with
  | none => .ok k
  | some other =>
    Outcome.supersede (do
      let (_, shared) ← k.addArcUnique
        { name := arc.name
          labels := arc.labels.inter other.labels
          source := sharedEnd l r k arc other .source
          target := sharedEnd l r k arc other .target
          directed := arc.directed
          doublyDirected := arc.doublyDirected }
      return shared) (RuleError.malformedGraph .k)

/-- Adds a hyperarc of L to the context if R has one of its name, with the
members that it has there as well. -/
def shareHyperArc (l r : Graph) (k : Graph) (hyperarc : HyperArc) : Outcome RuleError Graph :=
  match r.hyperarcs.getNamed? hyperarc.name with
  | none => .ok k
  | some other =>
    let otherMembers := other.members.map fun key => r.nodeName? (some key)
    let names := hyperarc.members.filterMap fun key => l.nodeName? (some key)
    let shared := names.filter fun name => otherMembers.contains (some name)
    Outcome.supersede (do
      let (_, shared) ← k.addHyperArcUnique
        { name := hyperarc.name
          labels := hyperarc.labels.inter other.labels
          members := distinctMembers (shared.filterMap k.nodes.find?) }
      return shared) (RuleError.malformedGraph .k)

/-- The context of the elements whose names are in L and in R. -/
def derive (l r : Graph) : Outcome RuleError Graph := do
  let withNodes := l.nodes.elements.foldl (shareNode r) .empty
  let withArcs ← l.arcs.elements.foldlM (shareArc l r) withNodes
  l.hyperarcs.elements.foldlM (shareHyperArc l r) withArcs

/-! ## Counterparts

The context is used for its names. Each of them pairs an element of L with one of R, and the
pairs are told by keys. -/

/-- Pairs the elements of L and R that bear the name of a context element.
None of those of L may be negative. -/
def relate {κ : Kind} {α : Type} [Attributed α] (l k r : Registry κ α)
    (negative : Key κ → Bool) : Outcome RuleError (Correspondence (Key κ) (Key κ)) :=
  k.elements.foldlM (fun related a =>
    match l.find? (nameOf a), r.find? (nameOf a) with
    | some lKey, some rKey =>
      if negative lKey then .fail (.negativeElementInContext κ (nameOf a))
      else .ok (related.insert lKey rKey)
    | _, _ => .ok related) .empty

end Context

end GraphGrammar
