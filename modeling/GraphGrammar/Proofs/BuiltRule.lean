import GraphGrammar.Proofs.SharedContext
import GraphGrammar.Rule.Draft

/-!
# What building a rule guarantees

The recognizer and the applier rely on a rule having been built: its graphs
are compact and well formed, no positive element of L refers to a negative
node, and the correspondences between L and R pair exactly the elements whose
names the context has. `GrammarRule.Coherent` lists what they rely on, and
`RuleDraft.coherent_of_build` says that every rule that is built has it.

The one thing asked of a draft is that its hyperarcs list no member twice,
which building does not check because hyperarcs are made that way.

`GrammarRule.Built` is the hypothesis of the main results, and `GrammarRule.Coherent` is what
their proofs use. A result that holds of coherent rules holds of rules that were built by
`GrammarRule.Built.coherent`, and no proof about recognition or application looks at how a rule
is built.
-/

namespace GraphGrammar

open Attributed

/-- No hyperarc of a draft lists a member twice. Members are put in one by one, and none that is
there already; so a graph that was built by edits has it. -/
structure RuleDraft.MembersDistinct (draft : RuleDraft) : Prop where
  l : draft.l.MembersDistinct
  r : draft.r.MembersDistinct
  k : ∀ k, draft.k = some k → k.MembersDistinct

/-- A rule that was built from a draft. The draft is not part of the condition: the same rule may
be built from many drafts. -/
def GrammarRule.Built (rule : GrammarRule) : Prop :=
  ∃ draft : RuleDraft, draft.MembersDistinct ∧ draft.build = .ok rule

/-- **What the recognizer and the applier rely on.** Each field is a fact that some later proof
would have to derive from the steps of building otherwise. Nothing is said of conditions or
labels, since the recognizer and the applier make do with whatever is there. -/
structure GrammarRule.Coherent (rule : GrammarRule) : Prop where
  l_wellFormed : rule.l.WellFormed
  k_wellFormed : rule.k.WellFormed
  r_wellFormed : rule.r.WellFormed
  l_compact : rule.l.Compact
  r_compact : rule.r.Compact
  positive_ends : ∀ key arc, rule.l.arc? key = some arc → rule.isNegativeArc key = false →
    ∀ node ∈ arc.ends, rule.isNegativeNode node = false
  positive_members : ∀ key hyperarc, rule.l.hyperarc? key = some hyperarc →
    rule.isNegativeHyperArc key = false →
    ∀ node ∈ hyperarc.members, rule.isNegativeNode node = false
  node_pairs : Pairs rule.l.nodes rule.r.nodes
    (fun name => rule.k.nodes.names.contains name = true) rule.contextNodes
  arc_pairs : Pairs rule.l.arcs rule.r.arcs
    (fun name => rule.k.arcs.names.contains name = true) rule.contextArcs
  hyperarc_pairs : Pairs rule.l.hyperarcs rule.r.hyperarcs
    (fun name => rule.k.hyperarcs.names.contains name = true) rule.contextHyperArcs
  positive_nodes : ∀ lKey rKey, rule.contextNodes.right? lKey = some rKey →
    rule.isNegativeNode lKey = false
  positive_arcs : ∀ lKey rKey, rule.contextArcs.right? lKey = some rKey →
    rule.isNegativeArc lKey = false
  positive_hyperarcs : ∀ lKey rKey, rule.contextHyperArcs.right? lKey = some rKey →
    rule.isNegativeHyperArc lKey = false

/-- Every node that L and R share by name belongs to the context. With it a node that L and R
name alike is never deleted and added anew, which is what reconnecting by names takes for
granted. -/
def GrammarRule.KeepsShared (rule : GrammarRule) : Prop :=
  ∀ name, rule.l.nodes.names.contains name = true → rule.r.nodes.names.contains name = true →
    rule.k.nodes.names.contains name = true

namespace RuleDraft

/-- What is not refused for referring to a negative node. -/
theorem of_checkAttached_eq_ok {κ : Kind} {α : Type} [Attributed α] {elements : Registry κ α}
    {nodesOf : α → List NodeKey} {negativeNode : NodeKey → Bool} {negative : Key κ → Bool}
    (h : checkAttached elements nodesOf negativeNode negative = .ok ()) {key : Key κ} {a : α}
    (ha : elements.get? key = some a) (hpositive : negative key = false) {node : NodeKey}
    (hnode : node ∈ nodesOf a) : negativeNode node = false := by
  unfold checkAttached at h
  split at h
  · rename_i hnone
    have hfits := List.find?_eq_none.1 hnone (key, a) (Registry.mem_entries_iff.2 ha)
    dsimp only at hfits
    rw [hpositive, Bool.not_false, Bool.and_true] at hfits
    exact Bool.eq_false_iff.2 fun hneg => hfits (List.any_eq_true.2 ⟨node, hnode, hneg⟩)
  · exact nomatch h

/-- A condition that is missing says nothing, so the element is positive. -/
theorem any_negative_eq {γ : Type} (toCondition : γ → Condition) (fallback : γ)
    (hfallback : (toCondition fallback).negative = false) (conditions : List γ) (index : Nat) :
    conditions[index]?.any (fun condition => (toCondition condition).negative)
      = (toCondition (conditions[index]?.getD fallback)).negative := by
  cases conditions[index]? with
  | none => exact hfallback.symm
  | some condition => rfl

/-- A context that is given is checked, on its own and against the sides, and then copied. -/
theorem of_given_context_eq_ok {given l r k : Graph} (h : context (some given) l r = .ok k) :
    given.validate = .ok () ∧ Context.check l given r = .ok () ∧ k = given.copy := by
  obtain ⟨_, hvalid, h⟩ := bind_eq_ok_iff.1 h
  obtain ⟨_, hcheck, h⟩ := bind_eq_ok_iff.1 h
  exact ⟨Outcome.supersede_eq_ok_iff.1 hvalid, hcheck, (Except.ok.inj h).symm⟩

/-- The context of a draft is well formed, and if it was derived it names every
node that L and R share. -/
theorem of_context_eq_ok {given : Option Graph} {l r k : Graph} (hl : l.WellFormed)
    (hr : r.WellFormed) (hgiven : ∀ k, given = some k → k.MembersDistinct)
    (h : context given l r = .ok k) :
    k.WellFormed ∧ (given = none → ∀ name, l.nodes.names.contains name = true →
      r.nodes.names.contains name = true → k.nodes.names.contains name = true) := by
  cases given with
  | none =>
    cases (Context.derive_eq l r).symm.trans h
    have hshared := Context.wellFormed_shared l r
    exact ⟨hshared, fun _ _ => Context.contains_of_names hl.nodes_indexed hshared.nodes_indexed
      (Context.names_shared hl.linked hr.linked).1⟩
  | some given =>
    refine ⟨?_, nofun⟩
    obtain ⟨-, -, rfl⟩ := of_given_context_eq_ok h
    exact Graph.wellFormed_copy (hgiven given rfl)

/-- **What building a rule comes to**: what was checked, and where each part of the rule is from.
The fields are equations and successful checks, in the order in which a draft is gone through. -/
structure Assembles (draft : RuleDraft) (rule : GrammarRule) : Prop where
  l_valid : draft.l.validate = .ok ()
  r_valid : draft.r.validate = .ok ()
  l : rule.l = draft.l.copy
  r : rule.r = draft.r.copy
  nodeConditions : rule.nodeConditions = conditionsOf rule.l.nodes draft.nodeConditions
  arcConditions : rule.arcConditions = conditionsOf rule.l.arcs draft.arcConditions
  hyperarcConditions : rule.hyperarcConditions
    = conditionsOf rule.l.hyperarcs draft.hyperarcConditions
  attachedArcs : checkAttached rule.l.arcs Arc.ends rule.isNegativeNode rule.isNegativeArc = .ok ()
  attachedHyperArcs : checkAttached rule.l.hyperarcs HyperArc.members rule.isNegativeNode
    rule.isNegativeHyperArc = .ok ()
  context : context draft.k rule.l rule.r = .ok rule.k
  contextNodes : Context.relate rule.l.nodes rule.k.nodes rule.r.nodes rule.isNegativeNode
    = .ok rule.contextNodes
  contextArcs : Context.relate rule.l.arcs rule.k.arcs rule.r.arcs rule.isNegativeArc
    = .ok rule.contextArcs
  contextHyperArcs : Context.relate rule.l.hyperarcs rule.k.hyperarcs rule.r.hyperarcs
    rule.isNegativeHyperArc = .ok rule.contextHyperArcs
  embedding : ∀ e ∈ rule.embeddingRules, checkEmbedding rule.l rule.r e = .ok ()
  settings : rule.toRuleSettings = draft.toRuleSettings
  name : rule.name = draft.name

/-- **A draft that builds is taken apart step by step**: each check has passed, and each part of
the rule is the one that the step after it makes. What follows for rules that are built is read
off these facts, and building is not opened again. -/
theorem assembles_of_build {draft : RuleDraft} {rule : GrammarRule}
    (hbuild : draft.build = .ok rule) : draft.Assembles rule := by
  have h : draft.assemble = .ok rule := Outcome.note_eq_ok_iff.1 hbuild
  simp only [assemble, bind_eq_ok_iff] at h
  obtain ⟨_, hl, _, hr, _, -, _, -, _, -, _, harcs, _, hhyperarcs, k, hk, contextNodes, hnodePairs,
    contextArcs, harcPairs, contextHyperArcs, hhyperarcPairs, _, hembedding, hrule⟩ := h
  cases hrule
  -- the negative elements are told by the list of conditions, as in the rule
  have hnode := any_negative_eq NodeCondition.toCondition {} rfl
    (conditionsOf draft.l.copy.nodes draft.nodeConditions)
  have harc := any_negative_eq ArcCondition.toCondition {} rfl
    (conditionsOf draft.l.copy.arcs draft.arcConditions)
  have hhyperarc := any_negative_eq HyperArcCondition.toCondition {} rfl
    (conditionsOf draft.l.copy.hyperarcs draft.hyperarcConditions)
  simp only [hnode, harc, hhyperarc] at harcs hhyperarcs hnodePairs harcPairs hhyperarcPairs
  constructor
  · exact Outcome.supersede_eq_ok_iff.1 hl
  · exact Outcome.supersede_eq_ok_iff.1 hr
  · rfl
  · rfl
  · rfl
  · rfl
  · rfl
  · exact harcs
  · exact hhyperarcs
  · exact hk
  · exact hnodePairs
  · exact harcPairs
  · exact hhyperarcPairs
  · exact forM_eq_ok_iff.1 hembedding
  · rfl
  · rfl

/-- **Every rule that is built is coherent**, and keeps what its sides share if its context was
derived. The sides are copies, so they are compact and well formed; the context is well formed by
its check or by the way it is derived; and the pairs of counterparts are those that relating
leads to. -/
theorem coherent_of_build {draft : RuleDraft} {rule : GrammarRule} (hdraft : draft.MembersDistinct)
    (hbuild : draft.build = .ok rule) :
    rule.Coherent ∧ (draft.k = none → rule.KeepsShared) := by
  have h := assembles_of_build hbuild
  have hl : rule.l.WellFormed := h.l ▸ Graph.wellFormed_copy hdraft.l
  have hr : rule.r.WellFormed := h.r ▸ Graph.wellFormed_copy hdraft.r
  obtain ⟨hk, hshared⟩ := of_context_eq_ok hl hr hdraft.k h.context
  obtain ⟨hnodePairs, hnodes⟩ :=
    Context.pairs_of_relate hl.nodes_indexed hk.nodes_indexed hr.nodes_indexed h.contextNodes
  obtain ⟨harcPairs, harcs⟩ :=
    Context.pairs_of_relate hl.arcs_indexed hk.arcs_indexed hr.arcs_indexed h.contextArcs
  obtain ⟨hhyperarcPairs, hhyperarcs⟩ :=
    Context.pairs_of_relate hl.hyperarcs_indexed hk.hyperarcs_indexed hr.hyperarcs_indexed
      h.contextHyperArcs
  refine ⟨?_, hshared⟩
  constructor
  · exact hl
  · exact hk
  · exact hr
  · exact h.l ▸ Graph.compact_copy _
  · exact h.r ▸ Graph.compact_copy _
  · exact fun _ _ hkey hpositive _ => of_checkAttached_eq_ok h.attachedArcs hkey hpositive
  · exact fun _ _ hkey hpositive _ => of_checkAttached_eq_ok h.attachedHyperArcs hkey hpositive
  · exact hnodePairs
  · exact harcPairs
  · exact hhyperarcPairs
  · exact hnodes
  · exact harcs
  · exact hhyperarcs

end RuleDraft

/-- What was built is coherent: the form in which the main results use it. -/
theorem GrammarRule.Built.coherent {rule : GrammarRule} (h : rule.Built) : rule.Coherent := by
  obtain ⟨draft, hdraft, hbuild⟩ := h
  exact (RuleDraft.coherent_of_build hdraft hbuild).1

/-- An embedding rule attaches arcs to a node that R has. -/
theorem GrammarRule.Built.exists_rNode {rule : GrammarRule} (h : rule.Built) :
    ∀ e ∈ rule.embeddingRules, ∃ key, rule.r.nodes.find? e.rNode = some key := by
  intro e he
  obtain ⟨draft, -, hbuild⟩ := h
  have hcheck := (RuleDraft.assembles_of_build hbuild).embedding e he
  unfold RuleDraft.checkEmbedding at hcheck
  cases hfind : rule.r.nodes.find? e.rNode with
  | none =>
    rw [hfind] at hcheck
    exact nomatch hcheck
  | some key => exact ⟨key, rfl⟩

end GraphGrammar
