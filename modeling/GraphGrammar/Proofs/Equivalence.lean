import GraphGrammar.Proofs.ExactMatch
import GraphGrammar.Proofs.LimitedRecognition

/-!
# Structural equivalence is isomorphism

Two well formed graphs are structurally equivalent if and only if they are isomorphic and
have the same global labels and variables (`structurallyEquivalent_iff`).

The equivalence is put to the recognizer as two questions, and each of them is answered
by a correspondence, under which a list of variables may be longer on the other side. The
two correspondences need not be each other's inverse. It still follows that no list is
longer: the variables of all elements together cannot become more on the way there and
not less on the way back, so the first correspondence is an isomorphism. For the converse
an isomorphism is such a correspondence, and turned around it is another.

That two numbers are close to each other whichever is asked first is taken for granted of
the variables of the two graphs.

The condition on labels is that of a set. A graph that is read has it, and without it the test of
labels, which compares the sizes of two sets, could take different sets for the same.
-/

namespace GraphGrammar

open Attributed GraphGrammar.Equivalence

/-! ## Copies

Both graphs are copied before they are compared, so that their keys are numbers without gaps.
Copying changes keys alone, and a correspondence does not depend on keys. -/

section

variable {a b c : Graph} {V : List Float → List Float → Prop}

/-- Moving a graph leaves its attributes in their order. -/
theorem Graph.Relocated.allAttributes {σ : Relocation} (h : a.Relocated σ b) :
    b.allAttributes = a.allAttributes := by
  have hmoved : ∀ {α : Type} [Attributed α] [Connected α] (elements : List α),
      (elements.map σ.move).map attributes = elements.map attributes := by
    intro α _ _ elements
    rw [List.map_map]
    exact List.map_congr_left fun x _ => σ.attributes_move x
  unfold Graph.allAttributes
  rw [h.nodes.elements, h.arcs.elements, h.hyperarcs.elements]
  exact congrArg₂ _ (congrArg₂ _ (hmoved _) (hmoved _)) (hmoved _)

/-- A copy lists no label twice if the graph does not. -/
theorem Graph.labelsDistinct_copy (ha : a.WellFormed) (h : a.LabelsDistinct) :
    a.copy.LabelsDistinct :=
  ⟨(relocated_copy ha).allAttributes ▸ h.elements, h.globals⟩

/-- What corresponds to a copy corresponds to the graph, and the other way round. -/
theorem Graph.exists_corresponds_copy_iff (ha : a.WellFormed) :
    (∃ f, a.copy.Corresponds V f b) ↔ ∃ f, a.Corresponds V f b := by
  have hcopy := (relocated_copy ha).corresponds
  obtain ⟨back, hback⟩ := hcopy.symm (wellFormed_copy ha.members_distinct) (W := Eq)
    fun _ _ _ _ heq => heq.symm
  constructor
  · rintro ⟨f, hf⟩
    exact ⟨_, hback.trans hf fun _ _ _ heq h => heq ▸ h⟩
  · rintro ⟨f, hf⟩
    exact ⟨_, hcopy.trans hf fun _ _ _ heq h => heq ▸ h⟩

end

/-! ## One direction -/

variable {a b : Graph} (ha : a.WellFormed) (hb : b.WellFormed) (hla : a.LabelsDistinct)
  (hlb : b.LabelsDistinct)

include ha hb hla hlb in
/-- **A graph occurs in a graph of the same size with nothing missing and nothing beside it if
and only if the two correspond.** The question is put to the recognizer, which is asked for one
option. The rule is that of the copy, so what is found is a correspondence with the copy, and the
graph corresponds to its copy. -/
theorem embedsExactly_iff (hnodes : b.nodes.count = a.nodes.count)
    (harcs : b.arcs.count = a.arcs.count) (hhyperarcs : b.hyperarcs.count = a.hyperarcs.count) :
    embedsExactly a b = true ↔
      (∀ label, label ∈ a.globalLabels.toList ↔ label ∈ b.globalLabels.toList) ∧
        ∃ f, a.Corresponds Extends f b := by
  obtain ⟨rule, hbuild, hrule⟩ := exists_build ha
  have hcopy := Graph.relocated_copy ha
  have hlcopy := Graph.labelsDistinct_copy ha hla
  have hsize : ∀ {κ : Kind} {α : Type} [Attributed α] [Connected α] {copy r r' : Registry κ α},
      Graph.Indexed r → Graph.Indexed r' → copy.Relocated a.spread r → r'.count = r.count →
      r'.keys.length ≤ copy.keys.length := by
    intro κ α _ _ copy r r' hr hr' hrelocated hcount
    rw [hr.count_eq, hr'.count_eq, hrelocated.keys, List.length_map] at hcount
    exact Nat.le_of_eq hcount
  have hembeds : embedsExactly a b = true ↔
      (recognize b rule { maxOptions := some 1 }).options ≠ [] := by
    unfold embedsExactly
    rw [hbuild]
    dsimp only
    rw [Bool.not_eq_true', List.isEmpty_eq_false_iff]
  rw [hembeds, recognize_one_iff hb hrule.coherent,
    hrule.globalsMet_iff hlcopy.globals hlb.globals,
    hrule.matches_iff hb hlcopy hlb (hsize ha.nodes_indexed hb.nodes_indexed hcopy.nodes hnodes)
      (hsize ha.arcs_indexed hb.arcs_indexed hcopy.arcs harcs)
      (hsize ha.hyperarcs_indexed hb.hyperarcs_indexed hcopy.hyperarcs hhyperarcs),
    Graph.exists_corresponds_copy_iff ha]
  rfl

/-! ## Both directions

A condition on variables asks that the host have a value close to each of the pattern's. It
cannot say that the host has no more of them, so one question by itself would take a node for one
with fewer variables. -/

/-- Lists of variables that are close to each other, and as many. -/
abbrev Close : List Float → List Float → Prop := List.Forall₂ fun v w => near v w = true

/-- Close lists are lists of one length of which one extends the other. -/
theorem close_iff {v w : List Float} (hnear : ∀ x ∈ v, ∀ y ∈ w, near x y = near y x) :
    Close v w ↔ Extends v w ∧ v.length = w.length := by
  rw [Close, List.forall₂_iff_get]
  constructor
  · rintro ⟨hlength, h⟩
    refine ⟨fun i x hx => ?_, hlength⟩
    obtain ⟨hi, rfl⟩ := List.getElem?_eq_some_iff.1 hx
    have hi' : i < w.length := hlength ▸ hi
    refine ⟨w[i], List.getElem?_eq_getElem hi', ?_⟩
    rw [← hnear _ (List.getElem_mem hi) _ (List.getElem_mem hi')]
    exact h i hi hi'
  · rintro ⟨h, hlength⟩
    refine ⟨hlength, fun i hi hi' => ?_⟩
    obtain ⟨y, hy, hclose⟩ := h i v[i] (List.getElem?_eq_getElem hi)
    obtain ⟨_, rfl⟩ := List.getElem?_eq_some_iff.1 hy
    show near v[i] w[i] = true
    rw [hnear _ (List.getElem_mem hi) _ (List.getElem_mem hi')]
    exact hclose

/-- Turned around, the numbers are compared as a condition compares them. -/
theorem extends_of_close_flip {v w : List Float} (h : Close v w) : Extends w v := by
  obtain ⟨hlength, hclose⟩ := List.forall₂_iff_get.1 h
  intro i y hy
  obtain ⟨hi, rfl⟩ := List.getElem?_eq_some_iff.1 hy
  exact ⟨_, List.getElem?_eq_getElem (hlength ▸ hi), hclose i (hlength ▸ hi) hi⟩

/-- **Two correspondences that lead there and back compare all variables.** -/
theorem Graph.Corresponds.close {f g : (κ : Kind) → Key κ → Key κ}
    (h : a.Corresponds Extends f b) (h' : b.Corresponds Extends g a)
    (hnear : ∀ x ∈ a.allAttributes, ∀ y ∈ b.allAttributes, ∀ v ∈ x.values, ∀ w ∈ y.values,
      near v w = near w v) : a.Corresponds Close f b := by
  refine h.mono (fun key x y hx hy hxy => ?_) (fun key x y hx hy hxy => ?_)
    fun key x y hx hy hxy => ?_
  · refine (close_iff (hnear _ (mem_allAttributes_of_node? hx) _
      (mem_allAttributes_of_node? hy))).2 ⟨hxy, ?_⟩
    exact h.nodes.measure_eq h'.nodes (μ := fun node => node.values.length)
      (fun _ _ h => h.values.length_le) (fun _ _ h => h.values.length_le) hx hy
  · refine (close_iff (hnear _ (mem_allAttributes_of_arc? hx) _
      (mem_allAttributes_of_arc? hy))).2 ⟨hxy, ?_⟩
    exact h.arcs.measure_eq h'.arcs (μ := fun arc => arc.values.length)
      (fun _ _ h => h.values.length_le) (fun _ _ h => h.values.length_le) hx hy
  · refine (close_iff (hnear _ (mem_allAttributes_of_hyperarc? hx) _
      (mem_allAttributes_of_hyperarc? hy))).2 ⟨hxy, ?_⟩
    exact h.hyperarcs.measure_eq h'.hyperarcs (μ := fun hyperarc => hyperarc.values.length)
      (fun _ _ h => h.values.length_le) (fun _ _ h => h.values.length_le) hx hy

include hla hlb in
/-- Corresponding nodes have their labels equally often. -/
theorem Graph.Corresponds.perm_nodeLabels {V : List Float → List Float → Prop}
    {f : (κ : Kind) → Key κ → Key κ} (h : a.Corresponds V f b) :
    (nodeLabels a).Perm (nodeLabels b) := by
  refine List.perm_iff_count.2 fun label => ?_
  unfold nodeLabels
  rw [List.count_flatMap, List.count_flatMap]
  refine (h.nodes.sum_eq fun key x y hx hy hxy => ?_).symm
  have hnodup := hla.elements _ (mem_allAttributes_of_node? hx)
  have hnodup' := hlb.elements _ (mem_allAttributes_of_node? hy)
  show x.labels.toList.count label = y.labels.toList.count label
  rw [hnodup.count, hnodup'.count]
  simp only [hxy.labels]

/-- **Structural equivalence decides isomorphism.** Of the graphs it is asked that they
are well formed and that their sets of labels are sets, and of the test of two variables
that it is symmetric. -/
theorem structurallyEquivalent_iff (a b : Graph) (ha : a.WellFormed) (hb : b.WellFormed)
    (hla : a.LabelsDistinct) (hlb : b.LabelsDistinct)
    (hnear : ∀ x ∈ a.allAttributes, ∀ y ∈ b.allAttributes, ∀ v ∈ x.values, ∀ w ∈ y.values,
      near v w = near w v) :
    structurallyEquivalent a b = true ↔
      (∀ label, label ∈ a.globalLabels.toList ↔ label ∈ b.globalLabels.toList) ∧
        (a.globalVariables == b.globalVariables) = true ∧ ∃ f, a.Corresponds Close f b := by
  unfold structurallyEquivalent sameOutline
  simp only [Bool.and_eq_true, beq_iff_eq, List.isPerm_iff, and_assoc]
  constructor
  · rintro ⟨hnodes, harcs, hhyperarcs, -, hvariables, -, hthere, hhome⟩
    obtain ⟨hlabels, f, hf⟩ :=
      (embedsExactly_iff ha hb hla hlb hnodes.symm harcs.symm hhyperarcs.symm).1 hthere
    -- each of the two answers gives a correspondence; together they leave no variable over
    obtain ⟨-, g, hg⟩ := (embedsExactly_iff hb ha hlb hla hnodes harcs hhyperarcs).1 hhome
    exact ⟨hlabels, hvariables, f, hf.close hg hnear⟩
  · rintro ⟨hlabels, hvariables, f, hf⟩
    have hnodes := hf.nodes.count_eq ha.nodes_indexed hb.nodes_indexed
    have harcs := hf.arcs.count_eq ha.arcs_indexed hb.arcs_indexed
    have hhyperarcs := hf.hyperarcs.count_eq ha.hyperarcs_indexed hb.hyperarcs_indexed
    have hextends : ∀ {x y : Attributes}, x ∈ a.allAttributes → y ∈ b.allAttributes →
        Close x.values y.values → Extends x.values y.values := fun hx hy hxy =>
      ((close_iff (hnear _ hx _ hy)).1 hxy).1
    have hthere : a.Corresponds Extends f b := hf.mono
      (fun _ _ _ hx hy =>
        hextends (Graph.mem_allAttributes_of_node? hx) (Graph.mem_allAttributes_of_node? hy))
      (fun _ _ _ hx hy =>
        hextends (Graph.mem_allAttributes_of_arc? hx) (Graph.mem_allAttributes_of_arc? hy))
      (fun _ _ _ hx hy =>
        hextends (Graph.mem_allAttributes_of_hyperarc? hx)
          (Graph.mem_allAttributes_of_hyperarc? hy))
    obtain ⟨g, hhome⟩ := hf.symm (W := Extends) ha fun x hx y hy hxy =>
      extends_of_close_flip hxy
    exact ⟨hnodes.symm, harcs.symm, hhyperarcs.symm,
      (LabelSet.sameLabels_iff_of_distinct hla.globals hlb.globals).2
        fun label => (hlabels label).symm,
      hvariables, hf.perm_nodeLabels hla hlb,
      (embedsExactly_iff ha hb hla hlb hnodes harcs hhyperarcs).2 ⟨hlabels, f, hthere⟩,
      (embedsExactly_iff hb ha hlb hla hnodes.symm harcs.symm hhyperarcs.symm).2
        ⟨fun label => (hlabels label).symm, g, hhome⟩⟩

/-- A node with variables. -/
def Graph.weighed (values : List Float) : Graph where
  nodes := .ofElements [{ name := "a", values }]

/-- The node has the variables, and there is nothing else with attributes. -/
theorem Graph.allAttributes_weighed (values : List Float) :
    (Graph.weighed values).allAttributes = [{ name := "a", values }] := rfl

/-- Nothing refers to anything. -/
theorem Graph.weighed_wellFormed (values : List Float) : (Graph.weighed values).WellFormed :=
  Graph.wellFormed_of_copy_eq rfl (Graph.membersDistinct_of_no_hyperarcs rfl)

/-- There are no labels. -/
theorem Graph.weighed_labelsDistinct (values : List Float) :
    (Graph.weighed values).LabelsDistinct := by
  refine ⟨fun x hx => ?_, List.nodup_nil⟩
  rw [allAttributes_weighed, List.mem_singleton] at hx
  rw [hx]
  exact List.nodup_nil

/-- A node with one variable is not taken for a node with two, whichever of them is close
to it: the theorem gives no pairing of nodes under which both lists have one length. -/
theorem structurallyEquivalent_iff_weighed :
    structurallyEquivalent (.weighed [2]) (.weighed [2, 2]) = false := by
  have hnear : ∀ x ∈ (Graph.weighed [2]).allAttributes, ∀ y ∈ (Graph.weighed [2, 2]).allAttributes,
      ∀ v ∈ x.values, ∀ w ∈ y.values, near v w = near w v := by
    simp [Graph.allAttributes_weighed]
  refine Bool.eq_false_iff.2 fun hequivalent => ?_
  obtain ⟨-, -, f, hf⟩ := (structurallyEquivalent_iff (.weighed [2]) (.weighed [2, 2])
    (Graph.weighed_wellFormed _) (Graph.weighed_wellFormed _) (Graph.weighed_labelsDistinct _)
    (Graph.weighed_labelsDistinct _) hnear).1 hequivalent
  have hweight : (Graph.weighed [2]).nodes.get? ⟨0⟩ = some { name := "a", values := [2] } := rfl
  obtain ⟨y, hy, hxy⟩ := hf.nodes.exists_same hweight
  have hvalues : y.toAttributes = { name := "a", values := [2, 2] } := by
    have hmem := Graph.mem_allAttributes_of_node? hy
    rwa [Graph.allAttributes_weighed, List.mem_singleton] at hmem
  have hlength := hxy.values.length_eq
  rw [hvalues] at hlength
  exact absurd hlength (by decide)

/-- The same edge from the other end, or an edge that points the other way. -/
example :
    let turned := fun directed : Bool => ({
      nodes := .ofElements [{ name := "x" }, { name := "y", labels := ⟨["here"]⟩ }]
      arcs := .ofElements [{ name := "f", source := some ⟨1⟩, target := some ⟨0⟩, directed }] }
        : Graph)
    let edge := fun directed : Bool => ({
      nodes := .ofElements [{ name := "a" }, { name := "b", labels := ⟨["here"]⟩ }]
      arcs := .ofElements [{ name := "e", source := some ⟨0⟩, target := some ⟨1⟩, directed }] }
        : Graph)
    structurallyEquivalent (edge false) (turned false) = true ∧
      structurallyEquivalent (edge true) (turned true) = false := by
  decide +kernel

end GraphGrammar
