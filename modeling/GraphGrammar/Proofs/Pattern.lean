import GraphGrammar.Proofs.Recognition

/-!
# Graphs as patterns

A graph can be looked for in a host by a rule whose L it is and that asks for
nothing else. The rule of a graph that is compact and well formed is built
without objection (`build_ofPattern`). As nothing is negative and no condition
says anything, a match is an injective assignment that respects labels, ends and
members, and that is all there is to show for one (`Graph.FoundAt`).

This is how a graph is found in another one by the means of the recognizer alone.
`GraphGrammar.Proofs.ExactMatch` and the comparison of graphs use it with a rule that asks for
more; here the rule asks for nothing, and the theorem is that then nothing stands in the way.
-/

namespace GraphGrammar

open Attributed

/-! ## The rule of a graph

The check of a draft asks for a well-formed L, for tables that are not longer than their
registries, and for sense in the negative elements. Without conditions and negative elements all
but the first is empty. -/

/-- The rule that looks for a graph and asks for nothing else. -/
def GrammarRule.ofPattern (l : Graph) : GrammarRule where
  name := ""
  l := l
  k := .empty
  r := .empty
  nodeConditions := l.nodes.elements.map fun _ => {}
  arcConditions := l.arcs.elements.map fun _ => {}
  hyperarcConditions := l.hyperarcs.elements.map fun _ => {}
  contextNodes := .empty
  contextArcs := .empty
  contextHyperArcs := .empty

section Building

variable {κ : Kind} {α : Type} [Attributed α]

/-- A list of elements with distinct names, none of them refused, passes the
check of a graph. -/
theorem Graph.checkAll_eq_ok {check : α → Outcome GraphError Unit} :
    ∀ {elements : List α} {seen : List Name}, (elements.map nameOf).Nodup →
      (∀ a ∈ elements, nameOf a ∉ seen) → (∀ a ∈ elements, check a = .ok ()) →
      checkAll κ check elements seen = .ok ()
  | [], _, _, _, _ => rfl
  | a :: rest, seen, hnodup, hseen, hcheck => by
    rw [List.map_cons, List.nodup_cons] at hnodup
    have hnew : ¬ seen.contains (nameOf a) = true := fun h =>
      hseen a List.mem_cons_self (List.contains_iff_mem.1 h)
    unfold checkAll
    rw [if_neg hnew, hcheck a List.mem_cons_self]
    refine checkAll_eq_ok hnodup.2 (fun b hb hmem => ?_) fun b hb =>
      hcheck b (List.mem_cons_of_mem _ hb)
    rcases List.mem_cons.1 hmem with heq | hmem
    · exact hnodup.1 (heq ▸ List.mem_map_of_mem hb)
    · exact hseen b (List.mem_cons_of_mem _ hb) hmem

/-- **A graph in which everything is alive passes its own check.** -/
theorem Graph.Linked.validate_eq_ok {g : Graph} (h : g.Linked) : g.validate = .ok () := by
  refine Outcome.supersede_eq_ok_iff.2 (bind_eq_ok_iff.2 ⟨(), ?_, bind_eq_ok_iff.2 ⟨(), ?_, ?_⟩⟩)
  · exact checkAll_eq_ok h.nodes_indexed.nodup_names_elements (fun _ _ => List.not_mem_nil)
      fun _ _ => rfl
  · refine checkAll_eq_ok h.arcs_indexed.nodup_names_elements (fun _ _ => List.not_mem_nil)
      fun arc harc => ?_
    obtain ⟨key, hkey⟩ := Registry.mem_elements_iff.1 harc
    exact checkEnds_eq_ok (h.ends_alive key arc hkey)
  · refine checkAll_eq_ok h.hyperarcs_indexed.nodup_names_elements (fun _ _ => List.not_mem_nil)
      fun hyperarc hhyperarc => ?_
    obtain ⟨key, hkey⟩ := Registry.mem_elements_iff.1 hhyperarc
    exact checkMembers_eq_ok (h.members_alive key hyperarc hkey)

/-- A well-formed graph passes its own check. -/
theorem Graph.validate_eq_ok {g : Graph} (h : g.WellFormed) : g.validate = .ok () :=
  h.linked.validate_eq_ok

/-- Where no node is negative, nothing positive is attached to a negative node. -/
theorem RuleDraft.checkAttached_eq_ok {elements : Registry κ α} {nodesOf : α → List NodeKey}
    {negativeNode : NodeKey → Bool} {negative : Key κ → Bool}
    (h : ∀ node, negativeNode node = false) :
    checkAttached elements nodesOf negativeNode negative = .ok () := by
  unfold checkAttached
  split
  · rfl
  · rename_i hfound
    have hattached := List.find?_some hfound
    simp [h] at hattached

end Building

section

variable {l : Graph}

/-- A list that holds one value everywhere holds it wherever one looks, if it is also the
default. -/
theorem getD_map_const {α γ : Type} (elements : List α) (c : γ) (i : Nat) :
    ((elements.map fun _ => c)[i]?).getD c = c := by
  rw [List.getElem?_map]
  cases elements[i]? <;> rfl

/-- No node has a condition. -/
theorem nodeCondition_ofPattern (key : NodeKey) :
    (GrammarRule.ofPattern l).nodeCondition key = {} :=
  getD_map_const l.nodes.elements ({} : NodeCondition) key.index

/-- No arc has a condition. -/
theorem arcCondition_ofPattern (key : ArcKey) :
    (GrammarRule.ofPattern l).arcCondition key = {} :=
  getD_map_const l.arcs.elements ({} : ArcCondition) key.index

/-- No hyperarc has a condition. -/
theorem hyperarcCondition_ofPattern (key : HyperArcKey) :
    (GrammarRule.ofPattern l).hyperarcCondition key = {} :=
  getD_map_const l.hyperarcs.elements ({} : HyperArcCondition) key.index

/-- **The rule of a graph is built**, and its L is the graph. -/
theorem build_ofPattern (hcompact : l.Compact) (h : l.WellFormed) :
    ({ l } : RuleDraft).build = .ok (.ofPattern l) := by
  have hpositive : ∀ node : NodeKey,
      (RuleDraft.conditionsOf l.nodes (.empty : NameMap NodeCondition))[node.index]?.any
        (·.negative) = false := by
    intro node
    have hcondition := nodeCondition_ofPattern (l := l) node
    exact (RuleDraft.any_negative_eq NodeCondition.toCondition {} rfl _ _).trans
      (congrArg (·.negative) hcondition)
  refine Outcome.note_eq_ok_iff.2 ?_
  unfold RuleDraft.assemble
  rw [Graph.validate_eq_ok h, Graph.copy_eq_self hcompact h]
  simp only [bind_eq_ok_iff]
  exact ⟨(), rfl, (), rfl, (), rfl, (), rfl, (), rfl, (),
    RuleDraft.checkAttached_eq_ok hpositive, (), RuleDraft.checkAttached_eq_ok hpositive,
    .empty, Context.derive_empty l, .empty, rfl, .empty, rfl, .empty, rfl, (), rfl, rfl⟩

end

/-! ## Matches of a graph

`Graph.FoundAt` is what a maintainer would take a subgraph to be, with assignments for maps. It
speaks of no rule; the rest of this section is that for the rule of the graph it is a match. -/

/-- **An assignment finds a graph in a host**: different elements in different
places, with their labels, ends and members. An arc may lie back to front if it
has no orientation or the host arc points both ways. -/
structure Graph.FoundAt (l host : Graph) (a : Assignment) : Prop where
  shaped : a.Shaped l
  distinct : a.Distinct
  node : ∀ key node, l.node? key = some node → ∃ image given, a.node? key = some image ∧
    host.node? image = some given ∧ ∀ label ∈ node.labels.toList, label ∈ given.labels.toList
  arc : ∀ key arc, l.arc? key = some arc → ∃ image given, a.arc? key = some image ∧
    host.arc? image = some given ∧
    (∀ label ∈ arc.labels.toList, label ∈ given.labels.toList) ∧
    (arc.isOriented = true → given.directed = true) ∧
    ∃ backToFront : Bool,
      (backToFront = true → arc.isOriented = false ∨ given.doublyDirected = true) ∧
      ∀ e node, arc.atEnd e = some node → ∃ place, a.node? node = some place ∧
        given.atEnd (if backToFront then e.opposite else e) = some place
  hyperarc : ∀ key hyperarc, l.hyperarc? key = some hyperarc → ∃ image given,
    a.hyperarc? key = some image ∧ host.hyperarc? image = some given ∧
    (∀ label ∈ hyperarc.labels.toList, label ∈ given.labels.toList) ∧
    ∀ node ∈ hyperarc.members, ∃ place, a.node? node = some place ∧ place ∈ given.members

section Found

variable {l host : Graph} {a : Assignment}

/-- If a list as long as a compact registry has a place for every element of
it, it has a place for nothing else. -/
theorem Registry.Compact.join_isSome_iff {κ : Kind} {α β : Type} {r : Registry κ α}
    (h : r.Compact) {places : List (Option β)} (hlength : places.length = r.cells.length)
    (hplaces : ∀ key a, r.get? key = some a → ∃ place, (places[key.index]?).join = some place)
    (key : Key κ) : (places[key.index]?).join.isSome = true ↔ r.contains key = true := by
  constructor
  · refine fun hplace => h.contains_iff_lt.2 (Nat.lt_of_not_le fun hle => ?_)
    rw [List.getElem?_eq_none (hlength ▸ hle)] at hplace
    exact nomatch hplace
  · intro hkey
    obtain ⟨a, ha⟩ := Registry.contains_iff.1 hkey
    exact Option.isSome_iff_exists.2 (hplaces key a ha)

/-- The empty condition asks for the labels of L and for nothing else. -/
theorem met_of_labels {pattern given : Attributes}
    (h : ∀ label ∈ pattern.labels.toList, label ∈ given.labels.toList) :
    ({} : Condition).Met pattern given :=
  ⟨h, nofun, nofun⟩

/-- No element is negative. -/
theorem isNegative_ofPattern (e : PatternElement) :
    (GrammarRule.ofPattern l).isNegative e = false := by
  cases e with
  | node key => exact congrArg (·.negative) (nodeCondition_ofPattern key)
  | arc key => exact congrArg (·.negative) (arcCondition_ofPattern key)
  | hyperarc key => exact congrArg (·.negative) (hyperarcCondition_ofPattern key)

namespace Graph.FoundAt

/-- A graph that is found has images for its elements and for nothing else. -/
theorem isSome_image?_iff (h : l.FoundAt host a) (hcompact : l.Compact) (e : PatternElement) :
    (a.image? e).isSome = true ↔ (GrammarRule.ofPattern l).hasElement e = true := by
  cases e with
  | node key =>
    rw [Assignment.image?, Option.isSome_map]
    refine hcompact.nodes.join_isSome_iff h.shaped.nodes (fun key node hnode => ?_) key
    obtain ⟨image, given, himage, -⟩ := h.node key node hnode
    exact ⟨image, himage⟩
  | arc key =>
    rw [Assignment.image?, Option.isSome_map]
    refine hcompact.arcs.join_isSome_iff h.shaped.arcs (fun key arc harc => ?_) key
    obtain ⟨image, given, himage, -⟩ := h.arc key arc harc
    exact ⟨image, himage⟩
  | hyperarc key =>
    rw [Assignment.image?, Option.isSome_map]
    refine hcompact.hyperarcs.join_isSome_iff h.shaped.hyperarcs (fun key hyperarc hh => ?_) key
    obtain ⟨image, given, himage, -⟩ := h.hyperarc key hyperarc hh
    exact ⟨image, himage⟩

/-- The image of an arc that is found suits it: without conditions, an end that
dangles asks for nothing. -/
theorem exists_arcSuits (h : l.FoundAt host a) {key : ArcKey} {arc : Arc}
    (harc : l.arc? key = some arc) :
    ∃ image given, a.arc? key = some image ∧ host.arc? image = some given ∧
      (GrammarRule.ofPattern l).ArcSuits a key arc given := by
  obtain ⟨image, given, himage, hgiven, hlabels, hdirected, backToFront, hturns, hends⟩ :=
    h.arc key arc harc
  have hmet : ∀ e, ({} : ArcCondition).EndMet a (arc.atEnd e)
      (given.atEnd (if backToFront then e.opposite else e)) := by
    intro e
    cases hend : arc.atEnd e with
    | none => exact nofun
    | some node => exact hends e node hend
  refine ⟨image, given, himage, hgiven, ?_, ?_, hdirected, ?_⟩ <;> rw [arcCondition_ofPattern]
  · exact met_of_labels hlabels
  · exact nofun
  · cases backToFront with
    | false => exact .inl ⟨hmet .source, hmet .target⟩
    | true => exact .inr ⟨hturns rfl, hmet .source, hmet .target⟩

/-- An element that is found suits the slot of its image. There are no conditions but the one
that says nothing, so the flags and degrees are not asked about. -/
theorem suits (h : l.FoundAt host a) {e : PatternElement} {slot : Nat}
    (helement : (GrammarRule.ofPattern l).hasElement e = true) (he : a.image? e = some slot) :
    (GrammarRule.ofPattern l).Suits host a e slot := by
  cases e with
  | node key =>
    obtain ⟨node, hnode⟩ := Registry.contains_iff.1 helement
    obtain ⟨image, given, himage, hgiven, hlabels⟩ := h.node key node hnode
    cases (Assignment.map_index_eq_some.1 he).symm.trans himage
    refine ⟨node, given, hnode, hgiven, ?_, ?_, ?_⟩ <;> rw [nodeCondition_ofPattern]
    · exact met_of_labels hlabels
    · exact nofun
    · exact nofun
  | arc key =>
    obtain ⟨arc, harc⟩ := Registry.contains_iff.1 helement
    obtain ⟨image, given, himage, hgiven, hsuits⟩ := h.exists_arcSuits harc
    cases (Assignment.map_index_eq_some.1 he).symm.trans himage
    exact ⟨arc, given, harc, hgiven, hsuits⟩
  | hyperarc key =>
    obtain ⟨hyperarc, hhyperarc⟩ := Registry.contains_iff.1 helement
    obtain ⟨image, given, himage, hgiven, hlabels, hmembers⟩ :=
      h.hyperarc key hyperarc hhyperarc
    cases (Assignment.map_index_eq_some.1 he).symm.trans himage
    refine ⟨hyperarc, given, hhyperarc, hgiven, ?_, ?_, hmembers⟩ <;>
      rw [hyperarcCondition_ofPattern]
    · exact met_of_labels hlabels
    · exact nofun

/-- **Where a graph is found, its rule matches.** -/
theorem matches_ofPattern (h : l.FoundAt host a) (hcompact : l.Compact) :
    (GrammarRule.ofPattern l).Matches host a := by
  refine ⟨⟨h.shaped, fun e => ?_, h.distinct, fun e slot he => ?_⟩, nofun, nofun, ?_⟩
  · rw [isNegative_ofPattern]
    exact (h.isSome_image?_iff hcompact e).trans (and_iff_left rfl).symm
  · have helement := (h.isSome_image?_iff hcompact e).1 (Option.isSome_iff_exists.2 ⟨slot, he⟩)
    exact h.suits helement he
  · rintro ⟨e, -, hnegative⟩
    rw [isNegative_ofPattern] at hnegative
    exact nomatch hnegative

end Graph.FoundAt

/-- **Where a graph is found, it is recognized**, if its global labels are there
too. -/
theorem mem_options_ofPattern (hhost : host.WellFormed) (hcompact : l.Compact)
    (hl : l.WellFormed) (h : l.FoundAt host a)
    (hlabels : ∀ label ∈ l.globalLabels.toList, label ∈ host.globalLabels.toList) :
    a ∈ (recognize host (.ofPattern l) {}).options.map (·.toAssignment) := by
  have hdistinct : ({ l } : RuleDraft).MembersDistinct :=
    ⟨hl.members_distinct, Graph.membersDistinct_of_no_hyperarcs rfl, nofun⟩
  have hcoherent := (RuleDraft.coherent_of_build hdistinct (build_ofPattern hcompact hl)).1
  refine (mem_map_options_iff hhost hcoherent).2 ⟨⟨nofun, ?_, nofun, nofun⟩,
    h.matches_ofPattern hcompact⟩
  exact (if_neg Bool.false_ne_true).mpr hlabels

end Found

end GraphGrammar
