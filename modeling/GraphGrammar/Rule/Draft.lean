import GraphGrammar.Rule.Context

/-!
# Drafts of rules

A draft holds the parts of a rule before they are checked: the graphs, the
conditions by the name of the element they are for, and the settings. Building
checks that the parts fit together and refuses a draft with the first cause
found. The graphs of the rule are copies without gaps.

A rule can be taken apart into a draft again. Its context is then given, and
only conditions that say something are listed.
-/

namespace GraphGrammar

/-- The parts of a rule, unchecked. -/
structure RuleDraft extends RuleSettings where
  name : String := ""
  l : Graph := .empty
  /-- The context; derived if absent. -/
  k : Option Graph := none
  r : Graph := .empty
  nodeConditions : NameMap NodeCondition := .empty
  arcConditions : NameMap ArcCondition := .empty
  hyperarcConditions : NameMap HyperArcCondition := .empty

namespace RuleDraft

open Attributed

/-! ## Building

The checks are made in a fixed order, and the first that fails is the one that is reported.
Conditions are given by name and end up in a list with one for each element of L. -/

/-- Refuses a condition for a name that no element bears. -/
def checkTargets {κ : Kind} {α γ : Type} (elements : Registry κ α) (conditions : NameMap γ) :
    Outcome RuleError Unit :=
  match conditions.names.find? fun name => (elements.find? name).isNone with
  | none => .ok ()
  | some name => .fail (.unknownConditionTarget κ name)

/-- The condition on each element, or the one that says nothing. -/
def conditionsOf {κ : Kind} {α γ : Type} [Attributed α] [Inhabited γ] (elements : Registry κ α)
    (conditions : NameMap γ) : List γ :=
  elements.elements.map fun a => (conditions.find? (nameOf a)).getD default

/-- Refuses an element that refers to a negative node and is not negative. -/
def checkAttached {κ : Kind} {α : Type} [Attributed α] (elements : Registry κ α)
    (nodesOf : α → List NodeKey) (negativeNode : NodeKey → Bool) (negative : Key κ → Bool) :
    Outcome RuleError Unit :=
  match elements.entries.find? fun (key, a) => (nodesOf a).any negativeNode && !negative key with
  | none => .ok ()
  | some (_, a) => .fail (.attachedToNegativeNode κ (nameOf a))

/-- The context of a draft whose sides have been copied: the given one, once
checked, or the derived one. -/
def context (given : Option Graph) (l r : Graph) : Outcome RuleError Graph :=
  match given with
  | none => Context.derive l r
  | some k => do
    k.validate.supersede (RuleError.malformedGraph .k)
    Context.check l k r
    return k.copy

/-- Refuses an embedding rule that names a node which is not there. -/
def checkEmbedding (l r : Graph) (e : EmbeddingRule) : Outcome RuleError Unit := do
  if (r.nodes.find? e.rNode).isNone then
    Outcome.fail (.unknownEmbeddingNode .r e.rNode)
  match e.lNode with
  | none => return ()
  | some name =>
    if (l.nodes.find? name).isNone then
      Outcome.fail (.unknownEmbeddingNode .l name)

/-- Checks the parts and puts them together. -/
def assemble (draft : RuleDraft) : Outcome RuleError GrammarRule := do
  draft.l.validate.supersede (RuleError.malformedGraph .l)
  draft.r.validate.supersede (RuleError.malformedGraph .r)
  let l := draft.l.copy
  let r := draft.r.copy
  checkTargets l.nodes draft.nodeConditions
  checkTargets l.arcs draft.arcConditions
  checkTargets l.hyperarcs draft.hyperarcConditions
  let nodeConditions := conditionsOf l.nodes draft.nodeConditions
  let arcConditions := conditionsOf l.arcs draft.arcConditions
  let hyperarcConditions := conditionsOf l.hyperarcs draft.hyperarcConditions
  let negativeNode := fun key : NodeKey => nodeConditions[key.index]?.any (·.negative)
  let negativeArc := fun key : ArcKey => arcConditions[key.index]?.any (·.negative)
  let negativeHyperArc := fun key : HyperArcKey => hyperarcConditions[key.index]?.any (·.negative)
  checkAttached l.arcs Arc.ends negativeNode negativeArc
  checkAttached l.hyperarcs HyperArc.members negativeNode negativeHyperArc
  let k ← context draft.k l r
  let contextNodes ← Context.relate l.nodes k.nodes r.nodes negativeNode
  let contextArcs ← Context.relate l.arcs k.arcs r.arcs negativeArc
  let contextHyperArcs ← Context.relate l.hyperarcs k.hyperarcs r.hyperarcs negativeHyperArc
  draft.embeddingRules.forM (checkEmbedding l r)
  return { draft.toRuleSettings with
    name := draft.name
    l, k, r, nodeConditions, arcConditions, hyperarcConditions
    contextNodes, contextArcs, contextHyperArcs }

/-- The rule of a draft. -/
def build (draft : RuleDraft) : Outcome RuleError GrammarRule :=
  let name := draft.name
  draft.assemble.note s!"while building rule `{name}`"

end RuleDraft

/-! ## Taking a rule apart

Conditions that say nothing are not written down again, as they are what stands in where there is
none. -/

/-- The conditions that say something, by the names of their elements. -/
def GrammarRule.namedConditions {α γ : Type} [Attributed α] [BEq γ] [Inhabited γ]
    (elements : List α) (conditions : List γ) : NameMap γ :=
  .ofList (((elements.map Attributed.nameOf).zip conditions).filter (·.2 != default))

/-- The parts of a rule, with the context given. -/
def GrammarRule.toDraft (rule : GrammarRule) : RuleDraft :=
  { rule.toRuleSettings with
    name := rule.name
    l := rule.l
    k := some rule.k
    r := rule.r
    nodeConditions := namedConditions rule.l.nodes.elements rule.nodeConditions
    arcConditions := namedConditions rule.l.arcs.elements rule.arcConditions
    hyperarcConditions := namedConditions rule.l.hyperarcs.elements rule.hyperarcConditions }

end GraphGrammar
