import GraphGrammar.Proofs.Redraft

/-!
# What a draft yields

A draft may be untidy: its graphs may have empty slots, and indices that say anything. What is
built from it is tidy, and is the draft put in order (`RuleDraft.yields_of_build`):

* the graphs of the rule are well formed and numbered without gaps. They restate those of the
  draft, element by element in their order (`Graph.restates_copy`); a context that was not given
  is what the sides share, in the order of L;
* every element of L has the condition that the draft has under its name;
* the correspondences relate exactly the elements of L and R that an element of K stands for,
  and every element of K stands for some, which are connected as it is;
* nothing negative is kept, and nothing that is not negative touches a negative node;
* the search may look up in its tables whatever key of L it comes to (`Occurrence.InRange`).

The first two parts are about copying and about names; the third is about the correspondences,
and the fourth about indices. They are independent of each other, and `RuleDraft.Yields` is what
they come to for one draft.
-/

namespace GraphGrammar

open Attributed

/-! ## Graphs put in order

A copy has other keys than the graph it was made of. So the two are compared by what the names
say: the ends of an arc are told by the names of the nodes there, and so are the members of a
hyperarc. -/

namespace Graph

variable {g : Graph}

/-- The keys of each kind are the numbers below the count of its elements. This is what a caller
may rely on who counts elements instead of asking for their keys. -/
structure Numbered (g : Graph) : Prop where
  nodes : g.nodes.keys = (List.range g.nodes.count).map Key.mk
  arcs : g.arcs.keys = (List.range g.arcs.count).map Key.mk
  hyperarcs : g.hyperarcs.keys = (List.range g.hyperarcs.count).map Key.mk

/-- A graph without gaps is numbered. -/
theorem Compact.numbered (h : g.Compact) (hlinked : g.Linked) : g.Numbered where
  nodes := by rw [h.nodes.count_eq hlinked.nodes_indexed, h.nodes.keys_eq]
  arcs := by rw [h.arcs.count_eq hlinked.arcs_indexed, h.arcs.keys_eq]
  hyperarcs := by rw [h.hyperarcs.count_eq hlinked.hyperarcs_indexed, h.hyperarcs.keys_eq]

/-- A live node has a name. -/
theorem exists_nodeName? {node : NodeKey} (h : g.hasNode node = true) :
    ∃ name, g.nodeName? (some node) = some name := by
  obtain ⟨a, ha⟩ := hasNode_iff.1 h
  exact ⟨a.name, congrArg (Option.map fun node : Node => node.name) ha⟩

/-- An arc of a graph is one of another graph with other keys for the nodes at its ends. An end
is compared by the name of the node there, and a dangling one has none on either side. -/
structure RestatesArc (given g : Graph) (arc restated : Arc) : Prop where
  attributes : restated.toAttributes = arc.toAttributes
  directed : restated.directed = arc.directed
  doublyDirected : restated.doublyDirected = arc.doublyDirected
  ends : ∀ e, g.nodeName? (restated.atEnd e) = given.nodeName? (arc.atEnd e)

/-- A hyperarc of a graph is one of another graph with other keys for its members. -/
structure RestatesHyperArc (given g : Graph) (hyperarc restated : HyperArc) : Prop where
  attributes : restated.toAttributes = hyperarc.toAttributes
  members : restated.members.map (fun node => g.nodeName? (some node))
    = hyperarc.members.map fun node => given.nodeName? (some node)

/-- **A graph restates another one**: it has the same elements in the same order, connected by
name as they are there. Keys are left out of the comparison, as are slots and indices, which are
what putting a graph in order changes. -/
structure Restates (given g : Graph) : Prop where
  name : g.name = given.name
  nodes : g.nodes.elements = given.nodes.elements
  arcs : List.Forall₂ (given.RestatesArc g) given.arcs.elements g.arcs.elements
  hyperarcs :
    List.Forall₂ (given.RestatesHyperArc g) given.hyperarcs.elements g.hyperarcs.elements
  globalLabels : g.globalLabels = given.globalLabels
  globalVariables : g.globalVariables = given.globalVariables

/-- **A copy restates the graph**, if this passes its check, whatever its slots and indices. An
end or a member is renumbered on the way, and what it is restated by is the name of the node,
which stays. -/
theorem restates_copy (h : g.validate = .ok ()) : g.Restates g.copy := by
  obtain ⟨hnames, hends, hmembers⟩ := of_validate h
  -- each live node has a counterpart in the copy, under the same name
  have hname : ∀ node, g.hasNode node = true → ∃ copied, g.renumbering.lookup node = some copied ∧
      g.copy.nodeName? (some copied) = g.nodeName? (some node) := fun node hnode => by
    obtain ⟨copied, hcopied⟩ := exists_renumbering hnode
    exact ⟨copied, hcopied, nodeName?_copy hnames hcopied⟩
  have harc : ∀ arc ∈ g.arcs.elements,
      g.RestatesArc g.copy arc (arc.mapEnds (g.renumbering.lookup ·)) := by
    intro arc harc
    refine ⟨rfl, rfl, rfl, fun e => ?_⟩
    have hend : (arc.mapEnds (g.renumbering.lookup ·)).atEnd e
        = (arc.atEnd e).bind (g.renumbering.lookup ·) := by cases e <;> rfl
    rw [hend]
    cases hnode : arc.atEnd e with
    | none => rfl
    | some node =>
      obtain ⟨copied, hcopied, hsame⟩ :=
        hname node (hends arc harc node (Arc.mem_ends_iff_atEnd.2 ⟨e, hnode⟩))
      rw [Option.bind_some, hcopied, hsame]
  have hhyperarc : ∀ hyperarc ∈ g.hyperarcs.elements,
      g.RestatesHyperArc g.copy hyperarc (hyperarc.mapMembers (g.renumbering.lookup ·)) := by
    intro hyperarc hhyperarc
    refine ⟨rfl, ?_⟩
    show (hyperarc.members.filterMap (g.renumbering.lookup ·)).map _ = _
    rw [List.map_filterMap, ← List.filterMap_eq_map]
    refine List.filterMap_congr fun node hnode => ?_
    obtain ⟨copied, hcopied, hsame⟩ := hname node (hmembers hyperarc hhyperarc node hnode)
    rw [hcopied, Option.map_some, hsame]
    rfl
  refine ⟨rfl, Registry.elements_ofElements hnames.nodes, ?_, ?_, rfl, rfl⟩
  · rw [arcs_copy hnames]
    exact List.forall₂_map_right_iff.2 (List.forall₂_same.2 harc)
  · rw [hyperarcs_copy hnames]
    exact List.forall₂_map_right_iff.2 (List.forall₂_same.2 hhyperarc)

end Graph

/-! ## Conditions

A draft gives conditions by name, and a rule has them by position. As the names of a checked
graph are distinct, each element of L gets the one condition that is meant for it. -/

/-- The condition in the place of an element is the one for its name, or the one that says
nothing. -/
theorem RuleDraft.getElem?_conditionsOf {κ : Kind} {α γ : Type} [Attributed α] [Inhabited γ]
    {elements : Registry κ α} (h : elements.Compact) (conditions : NameMap γ) {key : Key κ} {a : α}
    (ha : elements.get? key = some a) :
    (conditionsOf elements conditions)[key.index]?
      = some ((conditions.find? (nameOf a)).getD default) := by
  rw [conditionsOf, List.getElem?_map, h.getElem?_elements ha]
  rfl

/-! ## Counterparts

A correspondence is computed by going through the elements of K and looking their names up on
both sides. What is said of it does not mention a look-up. -/

namespace Correspondence

variable {κ : Kind} {α : Type} [Attributed α]

/-- **A correspondence relates L and R through K**: it pairs, one to one, the elements of L and R
of whose name there is an element in K, and no others. It is stated with names alone, without the
order in which the elements of K were looked at. -/
structure Relates (c : Correspondence (Key κ) (Key κ)) (l k r : Registry κ α) : Prop where
  right?_iff : ∀ lKey rKey, c.right? lKey = some rKey ↔
    ∃ a b, l.get? lKey = some a ∧ r.get? rKey = some b ∧
      ∃ shared ∈ k.elements, nameOf a = nameOf shared ∧ nameOf b = nameOf shared
  left?_iff : ∀ lKey rKey, c.left? rKey = some lKey ↔ c.right? lKey = some rKey

/-- What an element of K stands for in L and in R. -/
def Counterparts (c : Correspondence (Key κ) (Key κ)) (l r : Registry κ α) (shared a b : α) :
    Prop :=
  ∃ lKey rKey, c.right? lKey = some rKey ∧ l.get? lKey = some a ∧ r.get? rKey = some b ∧
    nameOf a = nameOf shared ∧ nameOf b = nameOf shared

end Correspondence

namespace Pairs

variable {κ : Kind} {α : Type} [Attributed α] {l k r : Registry κ α}
  {c : Correspondence (Key κ) (Key κ)}

/-- Pairing by the names of K is pairing what its elements stand for. -/
theorem relates (h : Pairs l r (fun name => k.names.contains name = true) c)
    (hl : Graph.Indexed l) (hk : Graph.Indexed k) (hr : Graph.Indexed r) : c.Relates l k r where
  right?_iff lKey rKey := by
    rw [h.right?_iff]
    constructor
    · rintro ⟨name, hnamed, hfind, hfind'⟩
      obtain ⟨a, ha, rfl⟩ := hl.exists_of_find? hfind
      obtain ⟨b, hb, hname⟩ := hr.exists_of_find? hfind'
      obtain ⟨shared, hshared, hname'⟩ := hk.contains_iff.1 hnamed
      exact ⟨a, b, ha, hb, shared, hshared, hname'.symm, hname.trans hname'.symm⟩
    · rintro ⟨a, b, ha, hb, shared, hshared, hname, hname'⟩
      exact ⟨nameOf shared, hk.contains_iff.2 ⟨shared, hshared, rfl⟩, hname ▸ hl.find?_eq_some ha,
        hname' ▸ hr.find?_eq_some hb⟩
  left?_iff := h.left?_iff

/-- What bears the name of an element of K is its counterpart. There is one on either side, since
names are distinct there. -/
theorem counterparts (h : Pairs l r (fun name => k.names.contains name = true) c)
    (hl : Graph.Indexed l) (hk : Graph.Indexed k) (hr : Graph.Indexed r) {shared a b : α}
    (hshared : shared ∈ k.elements) (ha : l.getNamed? (nameOf shared) = some a)
    (hb : r.getNamed? (nameOf shared) = some b) : c.Counterparts l r shared a b := by
  obtain ⟨lKey, hfind, ha⟩ := Option.bind_eq_some_iff.1 ha
  obtain ⟨rKey, hfind', hb⟩ := Option.bind_eq_some_iff.1 hb
  have hpair := (h.right?_iff lKey rKey).2
    ⟨nameOf shared, hk.contains_iff.2 ⟨shared, hshared, rfl⟩, hfind, hfind'⟩
  obtain ⟨_, hfound, hname⟩ := hl.exists_of_find? hfind
  obtain ⟨_, hfound', hname'⟩ := hr.exists_of_find? hfind'
  cases hfound.symm.trans ha
  cases hfound'.symm.trans hb
  exact ⟨lKey, rKey, hpair, ha, hb, hname, hname'⟩

end Pairs

/-! ## Look-ups of the search

The search looks keys up in lists whose lengths were fixed when the rule was built. This part
says that it never looks beyond their ends. `Occurrence.Reaches` is the widest notion of an
assignment that the search can come to: it does not ask that the extension was ever tried. -/

namespace Occurrence

/-- The assignments that a search can come to: it starts from one that assigns nothing, and goes
from each to its extensions. -/
inductive Reaches (s : Occurrence) : Assignment → Prop
  | start : s.Reaches s.unassigned
  | extend {a b : Assignment} {phase : Phase} {e : PatternElement} :
    s.Reaches a → b ∈ s.extensions phase a e → s.Reaches b

/-- **No look-up of a search is out of range.** Where it takes a key of L from, there is the key
of a live element, and where it looks up such a key, there is a place for it. -/
structure InRange (s : Occurrence) : Prop where
  plans : ∀ phase, ∀ e ∈ s.planOf phase, s.rule.hasElement e = true
  ends : ∀ key arc, s.rule.l.arc? key = some arc → ∀ node ∈ arc.ends, s.rule.l.hasNode node = true
  members : ∀ key hyperarc, s.rule.l.hyperarc? key = some hyperarc →
    ∀ node ∈ hyperarc.members, s.rule.l.hasNode node = true
  neighbors : ∀ phase key, s.rule.l.hasNode key = true →
    ∀ node ∈ (s.pattern phase).neighbors key, s.rule.l.hasNode node = true
  nodeConditions : ∀ key, s.rule.l.nodes.contains key = true →
    key.index < s.rule.nodeConditions.length
  arcConditions : ∀ key, s.rule.l.arcs.contains key = true →
    key.index < s.rule.arcConditions.length
  hyperarcConditions : ∀ key, s.rule.l.hyperarcs.contains key = true →
    key.index < s.rule.hyperarcConditions.length
  degrees : ∀ phase key, s.rule.l.nodes.contains key = true →
    key.index < (s.pattern phase).degrees.length
  neighborhoods : ∀ phase key, s.rule.l.nodes.contains key = true →
    key.index < (s.pattern phase).neighborhoods.length
  nodeImages : ∀ a, s.Reaches a → ∀ key, s.rule.l.nodes.contains key = true →
    key.index < a.nodes.length
  arcImages : ∀ a, s.Reaches a → ∀ key, s.rule.l.arcs.contains key = true →
    key.index < a.arcs.length
  hyperarcImages : ∀ a, s.Reaches a → ∀ key, s.rule.l.hyperarcs.contains key = true →
    key.index < a.hyperarcs.length

variable {host : Graph} {rule : GrammarRule} {a : Assignment}

/-- An assignment has a place for each element of L to begin with, and keeps it. The lists of an
assignment have the lengths of the slots of L, and an extension fills one place. -/
theorem Reaches.shaped (hrule : rule.Coherent) (h : (ofRule host rule).Reaches a) :
    a.Shaped rule.l := by
  induction h with
  | start => exact (underway_unassigned hrule).shaped
  | @extend a b phase e _ hb ih =>
    rw [extensions_eq] at hb
    obtain ⟨slot, -, rfl⟩ := List.mem_map.1 hb
    exact ih.place e slot

/-- The tables of the pattern have a place for each slot of L. -/
theorem sized_pattern (host : Graph) (rule : GrammarRule) (phase : Phase) :
    Adjacency.Sized rule.l.nodes.cells.length ((ofRule host rule).pattern phase) := by
  rw [pattern_ofRule]
  exact Adjacency.Sized.build ..

end Occurrence

/-- There is a condition for each slot of L. So the search finds a condition for every element
without asking whether there is one. -/
theorem RuleDraft.lt_length_conditionsOf {κ : Kind} {α γ : Type} [Attributed α] [Inhabited γ]
    {elements : Registry κ α} (h : elements.Compact) {conditions : NameMap γ} {key : Key κ}
    (hkey : elements.contains key = true) :
    key.index < (conditionsOf elements conditions).length := by
  rw [conditionsOf, List.length_map, ← List.length_map some, ← h.cells_eq]
  exact Registry.lt_of_contains hkey

/-- **The search of a rule that was built is in range**, in every host. -/
theorem RuleDraft.Assembles.inRange {draft : RuleDraft} {rule : GrammarRule}
    (h : draft.Assembles rule) (hrule : rule.Coherent) (host : Graph) :
    (Occurrence.ofRule host rule).InRange where
  plans phase e he := ((Occurrence.mem_planOf_iff phase).1 he).1
  ends := hrule.l_wellFormed.ends_alive
  members := hrule.l_wellFormed.members_alive
  neighbors phase key hkey node hnode := by
    obtain ⟨arcKey, arc, harc, -, hjoins⟩ := (mem_neighbors_pattern hkey).1 hnode
    refine hrule.l_wellFormed.ends_alive arcKey arc harc node (Arc.mem_ends.2 ?_)
    exact hjoins.elim (fun h => .inr h.2) fun h => .inl h.1
  nodeConditions key hkey := h.nodeConditions ▸ lt_length_conditionsOf hrule.l_compact.nodes hkey
  arcConditions key hkey := h.arcConditions ▸ lt_length_conditionsOf hrule.l_compact.arcs hkey
  hyperarcConditions key hkey :=
    h.hyperarcConditions ▸ lt_length_conditionsOf hrule.l_compact.hyperarcs hkey
  degrees phase key hkey :=
    (Occurrence.sized_pattern host rule phase).degrees ▸ Registry.lt_of_contains hkey
  neighborhoods phase key hkey :=
    (Occurrence.sized_pattern host rule phase).neighborhoods ▸ Registry.lt_of_contains hkey
  nodeImages a ha key hkey := (ha.shaped hrule).nodes ▸ Registry.lt_of_contains hkey
  arcImages a ha key hkey := (ha.shaped hrule).arcs ▸ Registry.lt_of_contains hkey
  hyperarcImages a ha key hkey := (ha.shaped hrule).hyperarcs ▸ Registry.lt_of_contains hkey

/-! ## The rule

Of an element of K the counterparts on the two sides are connected as it is. This is said for
each kind, and it is where the check of a given context is used: a context that is derived has
nothing but what the sides share. -/

/-- **What a draft yields**, if it yields a rule. The fields follow the parts of a rule;
`derived` alone is about drafts without a context. -/
structure RuleDraft.Yields (draft : RuleDraft) (rule : GrammarRule) : Prop where
  wellFormed : rule.l.WellFormed ∧ rule.k.WellFormed ∧ rule.r.WellFormed
  numbered : rule.l.Numbered ∧ rule.k.Numbered ∧ rule.r.Numbered
  restates : draft.l.Restates rule.l ∧ draft.r.Restates rule.r ∧
    ∀ k, draft.k = some k → k.Restates rule.k
  /-- A context that is not given has the names that L and R share, in the order of L. -/
  derived : draft.k = none →
    rule.k.nodes.elements.map nameOf
        = (rule.l.nodes.elements.map nameOf).filter rule.r.nodes.names.contains ∧
      rule.k.arcs.elements.map nameOf
        = (rule.l.arcs.elements.map nameOf).filter rule.r.arcs.names.contains ∧
      rule.k.hyperarcs.elements.map nameOf
        = (rule.l.hyperarcs.elements.map nameOf).filter rule.r.hyperarcs.names.contains
  nodeConditions : ∀ key node, rule.l.node? key = some node →
    rule.nodeCondition key = (draft.nodeConditions.find? node.name).getD {}
  arcConditions : ∀ key arc, rule.l.arc? key = some arc →
    rule.arcCondition key = (draft.arcConditions.find? arc.name).getD {}
  hyperarcConditions : ∀ key hyperarc, rule.l.hyperarc? key = some hyperarc →
    rule.hyperarcCondition key = (draft.hyperarcConditions.find? hyperarc.name).getD {}
  nodes_related : rule.contextNodes.Relates rule.l.nodes rule.k.nodes rule.r.nodes
  arcs_related : rule.contextArcs.Relates rule.l.arcs rule.k.arcs rule.r.arcs
  hyperarcs_related :
    rule.contextHyperArcs.Relates rule.l.hyperarcs rule.k.hyperarcs rule.r.hyperarcs
  /-- Nothing that stays is negative. -/
  kept_positive :
    (∀ lKey rKey, rule.contextNodes.right? lKey = some rKey → rule.isNegativeNode lKey = false) ∧
    (∀ lKey rKey, rule.contextArcs.right? lKey = some rKey → rule.isNegativeArc lKey = false) ∧
    ∀ lKey rKey, rule.contextHyperArcs.right? lKey = some rKey →
      rule.isNegativeHyperArc lKey = false
  /-- What touches a negative node is negative. -/
  attached_negative :
    (∀ key arc, rule.l.arc? key = some arc → ∀ node ∈ arc.ends, rule.isNegativeNode node = true →
      rule.isNegativeArc key = true) ∧
    ∀ key hyperarc, rule.l.hyperarc? key = some hyperarc → ∀ node ∈ hyperarc.members,
      rule.isNegativeNode node = true → rule.isNegativeHyperArc key = true
  contextNodes : ∀ node ∈ rule.k.nodes.elements,
    ∃ a b, rule.contextNodes.Counterparts rule.l.nodes rule.r.nodes node a b
  /-- An arc of the context is attached as its counterparts are. -/
  contextArcs : ∀ arc ∈ rule.k.arcs.elements,
    ∃ a b, rule.contextArcs.Counterparts rule.l.arcs rule.r.arcs arc a b ∧
      ∀ e node, arc.atEnd e = some node → ∃ name, rule.k.nodeName? (some node) = some name ∧
        rule.l.nodeName? (a.atEnd e) = some name ∧ rule.r.nodeName? (b.atEnd e) = some name
  /-- The counterparts of a hyperarc of the context have its members. -/
  contextHyperArcs : ∀ hyperarc ∈ rule.k.hyperarcs.elements,
    ∃ a b, rule.contextHyperArcs.Counterparts rule.l.hyperarcs rule.r.hyperarcs hyperarc a b ∧
      ∀ node ∈ hyperarc.members, ∃ name, rule.k.nodeName? (some node) = some name ∧
        (∃ member ∈ a.members, rule.l.nodeName? (some member) = some name) ∧
        ∃ member ∈ b.members, rule.r.nodeName? (some member) = some name
  in_range : ∀ host, (Occurrence.ofRule host rule).InRange

/-- The counterparts of a node of the context. -/
theorem GrammarRule.Coherent.node_counterparts {rule : GrammarRule} (h : rule.Coherent)
    (hl : Context.Fits rule.k rule.l) (hr : Context.Fits rule.k rule.r) {node : Node}
    (hnode : node ∈ rule.k.nodes.elements) :
    ∃ a b, rule.contextNodes.Counterparts rule.l.nodes rule.r.nodes node a b := by
  obtain ⟨lKey, hfind⟩ := hl.nodes node hnode
  obtain ⟨rKey, hfind'⟩ := hr.nodes node hnode
  obtain ⟨a, ha, -⟩ := h.l_wellFormed.nodes_indexed.exists_of_find? hfind
  obtain ⟨b, hb, -⟩ := h.r_wellFormed.nodes_indexed.exists_of_find? hfind'
  exact ⟨a, b, h.node_pairs.counterparts h.l_wellFormed.nodes_indexed h.k_wellFormed.nodes_indexed
    h.r_wellFormed.nodes_indexed hnode (Option.bind_eq_some_iff.2 ⟨lKey, hfind, ha⟩)
    (Option.bind_eq_some_iff.2 ⟨rKey, hfind', hb⟩)⟩

/-- The counterparts of an arc of the context are attached as it is. -/
theorem GrammarRule.Coherent.arc_counterparts {rule : GrammarRule} (h : rule.Coherent)
    (hl : Context.Fits rule.k rule.l) (hr : Context.Fits rule.k rule.r) {arc : Arc}
    (harc : arc ∈ rule.k.arcs.elements) :
    ∃ a b, rule.contextArcs.Counterparts rule.l.arcs rule.r.arcs arc a b ∧
      ∀ e node, arc.atEnd e = some node → ∃ name, rule.k.nodeName? (some node) = some name ∧
        rule.l.nodeName? (a.atEnd e) = some name ∧ rule.r.nodeName? (b.atEnd e) = some name := by
  obtain ⟨a, ha, hends⟩ := hl.arcs arc harc
  obtain ⟨b, hb, hends'⟩ := hr.arcs arc harc
  refine ⟨a, b, h.arc_pairs.counterparts h.l_wellFormed.arcs_indexed h.k_wellFormed.arcs_indexed
    h.r_wellFormed.arcs_indexed harc ha hb, fun e node hend => ?_⟩
  obtain ⟨key, hkey⟩ := Registry.mem_elements_iff.1 harc
  obtain ⟨name, hname⟩ := Graph.exists_nodeName? (h.k_wellFormed.ends_alive key arc hkey node
    (Arc.mem_ends_iff_atEnd.2 ⟨e, hend⟩))
  exact ⟨name, hname, (hends e node hend).symm.trans hname, (hends' e node hend).symm.trans hname⟩

/-- The counterparts of a hyperarc of the context have the members that it has. -/
theorem GrammarRule.Coherent.hyperarc_counterparts {rule : GrammarRule} (h : rule.Coherent)
    (hl : Context.Fits rule.k rule.l) (hr : Context.Fits rule.k rule.r) {hyperarc : HyperArc}
    (hhyperarc : hyperarc ∈ rule.k.hyperarcs.elements) :
    ∃ a b, rule.contextHyperArcs.Counterparts rule.l.hyperarcs rule.r.hyperarcs hyperarc a b ∧
      ∀ node ∈ hyperarc.members, ∃ name, rule.k.nodeName? (some node) = some name ∧
        (∃ member ∈ a.members, rule.l.nodeName? (some member) = some name) ∧
        ∃ member ∈ b.members, rule.r.nodeName? (some member) = some name := by
  obtain ⟨a, ha, hmembers⟩ := hl.hyperarcs hyperarc hhyperarc
  obtain ⟨b, hb, hmembers'⟩ := hr.hyperarcs hyperarc hhyperarc
  refine ⟨a, b, h.hyperarc_pairs.counterparts h.l_wellFormed.hyperarcs_indexed
    h.k_wellFormed.hyperarcs_indexed h.r_wellFormed.hyperarcs_indexed hhyperarc ha hb,
    fun node hnode => ?_⟩
  obtain ⟨key, hkey⟩ := Registry.mem_elements_iff.1 hhyperarc
  obtain ⟨name, hname⟩ :=
    Graph.exists_nodeName? (h.k_wellFormed.members_alive key hyperarc hkey node hnode)
  obtain ⟨member, hmember, heq⟩ := hmembers node hnode
  obtain ⟨member', hmember', heq'⟩ := hmembers' node hnode
  exact ⟨name, hname, ⟨member, hmember, heq.trans hname⟩, ⟨member', hmember', heq'.trans hname⟩⟩

/-- **A rule is what its draft yields**: tidy graphs that restate those of the draft, and a
context that relates them.

Nothing is asked of the draft but that it is not refused and that its hyperarcs list no member
twice. In particular its graphs may have been edited before, and their indices may be wrong. -/
theorem RuleDraft.yields_of_build {draft : RuleDraft} {rule : GrammarRule}
    (hdraft : draft.MembersDistinct) (hbuild : draft.build = .ok rule) : draft.Yields rule := by
  have h := assembles_of_build hbuild
  have hrule := (coherent_of_build hdraft hbuild).1
  have hl := hrule.l_wellFormed
  have hk := hrule.k_wellFormed
  have hr := hrule.r_wellFormed
  -- the context fits both sides, whether it was derived or given
  obtain ⟨⟨hfits, hfits'⟩, -, hcompact⟩ := context_fits hl.linked h.context
  constructor
  · exact ⟨hl, hk, hr⟩
  · exact ⟨hrule.l_compact.numbered hl.linked, hcompact.numbered hk.linked,
      hrule.r_compact.numbered hr.linked⟩
  · refine ⟨h.l ▸ Graph.restates_copy h.l_valid, h.r ▸ Graph.restates_copy h.r_valid,
      fun given hgiven => ?_⟩
    obtain ⟨hvalid, -, hcopy⟩ := of_given_context_eq_ok (hgiven ▸ h.context)
    exact hcopy ▸ Graph.restates_copy hvalid
  · intro hderived
    have hcontext := h.context
    rw [hderived] at hcontext
    rw [Except.ok.inj (hcontext.symm.trans (Context.derive_eq rule.l rule.r))]
    exact Context.names_shared hl.linked hr.linked
  · intro key node hnode
    rw [GrammarRule.nodeCondition, h.nodeConditions,
      getElem?_conditionsOf hrule.l_compact.nodes draft.nodeConditions hnode]
    rfl
  · intro key arc harc
    rw [GrammarRule.arcCondition, h.arcConditions,
      getElem?_conditionsOf hrule.l_compact.arcs draft.arcConditions harc]
    rfl
  · intro key hyperarc hhyperarc
    rw [GrammarRule.hyperarcCondition, h.hyperarcConditions,
      getElem?_conditionsOf hrule.l_compact.hyperarcs draft.hyperarcConditions hhyperarc]
    rfl
  · exact hrule.node_pairs.relates hl.nodes_indexed hk.nodes_indexed hr.nodes_indexed
  · exact hrule.arc_pairs.relates hl.arcs_indexed hk.arcs_indexed hr.arcs_indexed
  · exact hrule.hyperarc_pairs.relates hl.hyperarcs_indexed hk.hyperarcs_indexed
      hr.hyperarcs_indexed
  · exact ⟨hrule.positive_nodes, hrule.positive_arcs, hrule.positive_hyperarcs⟩
  · refine ⟨fun key arc harc node hnode hnegative => ?_,
      fun key hyperarc hhyperarc node hnode hnegative => ?_⟩
    · refine Bool.of_not_eq_false fun hpositive => ?_
      rw [hrule.positive_ends key arc harc hpositive node hnode] at hnegative
      exact Bool.false_ne_true hnegative
    · refine Bool.of_not_eq_false fun hpositive => ?_
      rw [hrule.positive_members key hyperarc hhyperarc hpositive node hnode] at hnegative
      exact Bool.false_ne_true hnegative
  · exact fun node => hrule.node_counterparts hfits hfits'
  · exact fun arc => hrule.arc_counterparts hfits hfits'
  · exact fun hyperarc => hrule.hyperarc_counterparts hfits hfits'
  · exact h.inRange hrule

/-- A draft of a rule that removes an edge and one of its nodes. One node of its left-hand side
was removed from between the others, and the indices there are empty. -/
def RuleDraft.untidy : RuleDraft where
  name := "untidy"
  l :=
    { nodes := { cells := [some { name := "a" }, none, some { name := "b" }] }
      arcs := { cells := [some { name := "e", source := some ⟨0⟩, target := some ⟨2⟩ }] } }
  r := { nodes := .ofElements [{ name := "b" }] }
  nodeConditions := .ofList [("b", { strictDegree := true })]

/-- It is put in order: the second node has moved up, its condition with it, and so has the end
of the edge. -/
theorem RuleDraft.yields_untidy :
    ∃ rule, untidy.build = .ok rule ∧ untidy.Yields rule ∧
      rule.l.nodes.find? "b" = some ⟨1⟩ ∧ rule.nodeCondition ⟨1⟩ = { strictDegree := true } ∧
      rule.contextNodes.right? ⟨1⟩ = some ⟨0⟩ := by
  have hdraft : untidy.MembersDistinct :=
    ⟨Graph.membersDistinct_of_no_hyperarcs rfl, Graph.membersDistinct_of_no_hyperarcs rfl, nofun⟩
  exact ⟨_, rfl, yields_of_build hdraft rfl, rfl, rfl, rfl⟩

end GraphGrammar
