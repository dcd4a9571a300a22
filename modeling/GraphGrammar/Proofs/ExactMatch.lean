import GraphGrammar.Proofs.ExactRule

/-!
# Matches of an exact rule

A match of the exact rule of a graph in a host with as many elements is a correspondence
between the graph and the host, and the other way round: as different elements have
different images, the images are all there is (`GrammarRule.Exacts.matches_iff`). What it
says of the variables is that each of them has a counterpart close to it
(`Equivalence.Extends`). It does not say that there are no others, since a condition only
looks at the variables that it mentions.

That a node and its image have the same degree, which the rule asks for and a
correspondence does not mention, comes of itself.

The conditions of the exact rule are the strictest that there are, and each of them comes to an
equality with what the element of the graph has. For labels this needs that neither side lists a
label twice, and for variables it is as near to an equality as the comparison of floating-point
numbers allows.
-/

namespace GraphGrammar

open Attributed

/-! ## Variables and labels

The constraints on variables are given with the value to compare with, one for each place. So the
host may have further variables behind these, and `Extends` is not symmetric. -/

namespace Equivalence

/-- The test by which two variables are taken for equal. -/
def near (v w : Float) : Bool := (v - w).abs ≤ 1e-9

/-- Every variable of the first list has one close to it at its place in the second. -/
def Extends (wanted given : List Float) : Prop :=
  ∀ (i : Nat) (w : Float), wanted[i]? = some w → ∃ v, given[i]? = some v ∧ near v w = true

/-- There are no fewer variables on the second side. -/
theorem Extends.length_le {wanted given : List Float} (h : Extends wanted given) :
    wanted.length ≤ given.length := by
  refine Nat.le_of_not_lt fun hlt => ?_
  obtain ⟨v, hv, -⟩ := h given.length _ (List.getElem?_eq_getElem hlt)
  rw [List.getElem?_eq_none (Nat.le_refl _)] at hv
  exact nomatch hv

/-- A constraint for a value asks for a variable close to it, at its place. -/
theorem holds_equal_iff {index : Nat} {value : Float} {values : List Float} :
    ({ index, comparison := .equal, value } : VariableConstraint).holds values = true ↔
      ∃ v, values[index]? = some v ∧ near v value = true := by
  unfold VariableConstraint.holds
  dsimp only
  cases values[index]? with
  | none => exact ⟨nofun, fun ⟨_, h, _⟩ => nomatch h⟩
  | some v => exact ⟨fun h => ⟨v, rfl, h⟩, fun ⟨_, hv, h⟩ => by cases hv; exact h⟩

/-- The constraints made of a list ask for a list that extends it. -/
theorem sameVariables_iff {wanted given : List Float} :
    (∀ constraint ∈ sameVariables wanted, constraint.holds given = true) ↔
      Extends wanted given := by
  unfold sameVariables
  rw [List.forall_mem_map]
  constructor
  · intro h i w hw
    exact holds_equal_iff.1 (h (w, i) (List.mem_zipIdx_iff_getElem?.2 hw))
  · rintro h ⟨w, i⟩ hmem
    exact holds_equal_iff.2 (h i w (List.mem_zipIdx_iff_getElem?.1 hmem))

end Equivalence

/-- Sets of labels without repeats are the same if they have the same labels. -/
theorem LabelSet.sameLabels_iff_of_distinct {s other : LabelSet} (hs : s.Distinct)
    (hother : other.Distinct) :
    s.sameLabels other = true ↔ ∀ label, label ∈ other.toList ↔ label ∈ s.toList := by
  rw [sameLabels_iff]
  constructor
  · rintro ⟨hsize, hmem⟩ label
    have hperm := (hother.subperm hmem).perm_of_length_le (Nat.le_of_eq hsize)
    exact hperm.mem_iff
  · intro h
    refine ⟨?_, fun label => (h label).1⟩
    exact ((List.perm_ext_iff_of_nodup hs hother).2 fun label => (h label).symm).length_eq

open GraphGrammar.Equivalence

/-- What the common part of the strictest conditions asks. -/
theorem met_exact_iff {x y : Attributes} (hx : x.labels.Distinct) (hy : y.labels.Distinct) :
    ({ labelMatch := .exact, variableConstraints := sameVariables x.values } : Condition).Met x y
      ↔ x.Alike Extends y := by
  have hlabels : LabelMatch.exact.Met x.labels y.labels ↔
      ∀ label, label ∈ x.labels.toList ↔ label ∈ y.labels.toList :=
    LabelSet.sameLabels_iff.symm.trans (LabelSet.sameLabels_iff_of_distinct hy hx)
  constructor
  · exact fun h => ⟨hlabels.1 h.labels, sameVariables_iff.1 h.values⟩
  · exact fun h => ⟨hlabels.2 h.labels, nofun, sameVariables_iff.2 h.values⟩

/-- No element of a graph, nor the graph, has a label twice. It is the invariant of label sets,
asked of every set in the graph. -/
structure Graph.LabelsDistinct (g : Graph) : Prop where
  elements : ∀ x ∈ g.allAttributes, x.labels.Distinct
  globals : g.globalLabels.Distinct

/-! ## The conditions of the rule

The conditions of the exact rule are looked up by the position of the element, and the graph is
compact, so each of them is made from the element at its own key. -/

/-- What stands for an element in a list made of the elements of a compact registry. -/
theorem Registry.Compact.getElem?_map {κ : Kind} {α γ : Type} {r : Registry κ α} (h : r.Compact)
    {key : Key κ} {a : α} (ha : r.get? key = some a) (f : α → γ) :
    (r.elements.map f)[key.index]? = some (f a) := by
  have hplace : r.elements[key.index]? = some a := by
    have hcell : (r.cells[key.index]?).join = some a := ha
    rw [h.cells_eq, List.getElem?_map] at hcell
    cases hfound : r.elements[key.index]? with
    | none => exact nomatch hfound ▸ hcell
    | some b => exact congrArg some (Option.some.inj (by rw [hfound] at hcell; exact hcell))
  rw [List.getElem?_map, hplace]
  rfl

namespace GrammarRule.Exacts

variable {rule : GrammarRule} {l host : Graph} {a : Assignment} (hrule : rule.Exacts l)
include hrule

/-- The graph that is looked for has no gaps. -/
theorem compact : l.Compact := hrule.l_eq ▸ hrule.coherent.l_compact

/-- It is well formed. -/
theorem wellFormed : l.WellFormed := hrule.l_eq ▸ hrule.coherent.l_wellFormed

/-- The condition on a node is the one made from it. -/
theorem nodeCondition_eq {key : NodeKey} {x : Node} (hx : l.node? key = some x) :
    rule.nodeCondition key = Equivalence.nodeCondition x := by
  rw [GrammarRule.nodeCondition, hrule.nodeConditions, hrule.compact.nodes.getElem?_map hx]
  rfl

/-- The condition on an arc is the one made from it. -/
theorem arcCondition_eq {key : ArcKey} {x : Arc} (hx : l.arc? key = some x) :
    rule.arcCondition key = Equivalence.arcCondition x := by
  rw [GrammarRule.arcCondition, hrule.arcConditions, hrule.compact.arcs.getElem?_map hx]
  rfl

/-- The condition on a hyperarc is the one made from it. -/
theorem hyperarcCondition_eq {key : HyperArcKey} {x : HyperArc} (hx : l.hyperarc? key = some x) :
    rule.hyperarcCondition key = Equivalence.hyperarcCondition x := by
  rw [GrammarRule.hyperarcCondition, hrule.hyperarcConditions,
    hrule.compact.hyperarcs.getElem?_map hx]
  rfl

/-- Nothing is negative. -/
theorem isNegative_eq (e : PatternElement) : rule.isNegative e = false := by
  have hgetD : ∀ {α γ : Type} (toCondition : γ → Condition) (fallback : γ) {condition : α → γ}
      (_ : (toCondition fallback).negative = false)
      (_ : ∀ x, (toCondition (condition x)).negative = false) (elements : List α) (i : Nat),
      (toCondition ((elements.map condition)[i]?.getD fallback)).negative = false := by
    intro α γ toCondition fallback condition hfallback hcondition elements i
    rw [← RuleDraft.any_negative_eq toCondition fallback hfallback]
    exact any_negative_map toCondition condition hcondition elements i
  cases e with
  | node key =>
    show (rule.nodeConditions[key.index]?.getD {}).negative = false
    rw [hrule.nodeConditions]
    exact hgetD NodeCondition.toCondition {} rfl (fun _ => rfl) _ _
  | arc key =>
    show (rule.arcConditions[key.index]?.getD {}).negative = false
    rw [hrule.arcConditions]
    exact hgetD ArcCondition.toCondition {} rfl (fun _ => rfl) _ _
  | hyperarc key =>
    show (rule.hyperarcConditions[key.index]?.getD {}).negative = false
    rw [hrule.hyperarcConditions]
    exact hgetD HyperArcCondition.toCondition {} rfl (fun _ => rfl) _ _

/-- All of L counts at a node. -/
theorem patternDegree_eq (key : NodeKey) : rule.patternDegree key = l.degree key := by
  have harc : ∀ key, rule.isNegativeArc key = false := fun key => hrule.isNegative_eq (.arc key)
  have hhyperarc : ∀ key, rule.isNegativeHyperArc key = false :=
    fun key => hrule.isNegative_eq (.hyperarc key)
  unfold GrammarRule.patternDegree Graph.degree Graph.hyperarcsOf
  rw [hrule.l_eq]
  simp only [harc, hhyperarc, Bool.not_false, Bool.or_true, Bool.true_and, List.filter_true,
    List.length_map, Registry.elements, List.flatMap_map]

/-- The global labels are to be the same. Nothing is asked of the global variables here. -/
theorem globalsMet_iff (hl : l.globalLabels.Distinct) (hhost : host.globalLabels.Distinct) :
    rule.GlobalsMet host ↔
      ∀ label, label ∈ l.globalLabels.toList ↔ label ∈ host.globalLabels.toList := by
  have hsettings := hrule.settings
  rw [← LabelSet.sameLabels_iff_of_distinct hhost hl, LabelSet.sameLabels_iff]
  constructor
  · intro h
    have hlabels := h.labels
    rw [hsettings, hrule.l_eq] at hlabels
    have hsize := h.size
    rw [hsettings, hrule.l_eq] at hsize
    exact ⟨hsize rfl, hlabels⟩
  · rintro ⟨hsize, hlabels⟩
    refine ⟨?_, ?_, ?_, ?_⟩ <;> rw [hsettings]
    · exact nofun
    · rw [hrule.l_eq]
      exact hlabels
    · rw [hrule.l_eq]
      exact fun _ => hsize
    · exact nofun

/-! ## One element and its image

A pairing of nodes is given, and the nodes at the element have their images by it. Then to fit is
to correspond, kind by kind. -/

section

variable {f : NodeKey → NodeKey}

omit hrule in
/-- An end is met where the node paired with it is, and where nothing is if it
dangles. -/
theorem endMet_iff {condition : ArcCondition} (hdangling : condition.danglingMeansDangling = true)
    {wanted given : Option NodeKey}
    (hassigned : ∀ node, wanted = some node → a.node? node = some (f node)) :
    condition.EndMet a wanted given ↔ given = wanted.map f := by
  cases wanted with
  | none => exact ⟨fun h => h hdangling, fun h _ => h⟩
  | some node =>
    constructor
    · rintro ⟨image, himage, hgiven⟩
      cases (hassigned node rfl).symm.trans himage
      exact hgiven
    · exact fun hgiven => ⟨f node, hassigned node rfl, hgiven⟩

/-- What an arc asks of its image is what a correspondence says of the two. The flags are the
same on both sides, so the arc may be met back to front only if neither has an orientation. -/
theorem arcSuits_iff (hl : l.LabelsDistinct) (hhost : host.LabelsDistinct) {key image : ArcKey}
    {x y : Arc} (hx : l.arc? key = some x) (hy : host.arc? image = some y)
    (hassigned : ∀ node ∈ x.ends, a.node? node = some (f node)) :
    rule.ArcSuits a key x y ↔ x.Alike Extends f y := by
  have hcondition := hrule.arcCondition_eq hx
  have hmet : (rule.arcCondition key).Met x.toAttributes y.toAttributes ↔
      x.toAttributes.Alike Extends y.toAttributes := by
    rw [hcondition]
    exact met_exact_iff (hl.elements _ (Graph.mem_allAttributes_of_arc? hx))
      (hhost.elements _ (Graph.mem_allAttributes_of_arc? hy))
  have hsource : ∀ {given}, (rule.arcCondition key).EndMet a x.source given ↔
      given = x.source.map f := endMet_iff (by rw [hcondition]; rfl) fun node hnode =>
    hassigned node (Arc.mem_ends.2 (.inl hnode))
  have htarget : ∀ {given}, (rule.arcCondition key).EndMet a x.target given ↔
      given = x.target.map f := endMet_iff (by rw [hcondition]; rfl) fun node hnode =>
    hassigned node (Arc.mem_ends.2 (.inr hnode))
  constructor
  · intro h
    obtain ⟨hdirected, hdoubly⟩ := h.flags (by rw [hcondition]; rfl)
    refine ⟨hmet.1 h.met, hdirected, hdoubly, ?_⟩
    rcases h.lies with ⟨hs, ht⟩ | ⟨hfree, hs, ht⟩
    · exact .inl ⟨hsource.1 hs, htarget.1 ht⟩
    · -- an arc that points both ways has no orientation
      have hunoriented : x.isOriented = false := hfree.elim id fun hboth => by
        rw [Arc.isOriented, ← hdoubly, hboth, Bool.not_true, Bool.and_false]
      exact .inr ⟨hunoriented, htarget.1 ht, hsource.1 hs⟩
  · intro h
    refine ⟨hmet.2 h.toAlike, fun _ => ⟨h.directed, h.doublyDirected⟩,
      fun horiented => ?_, ?_⟩
    · rw [Arc.isOriented, Bool.and_eq_true] at horiented
      rw [h.directed]
      exact horiented.1
    · rcases h.ends with ⟨hs, ht⟩ | ⟨hunoriented, hs, ht⟩
      · exact .inl ⟨hsource.2 hs, htarget.2 ht⟩
      · exact .inr ⟨.inl hunoriented, hsource.2 ht, htarget.2 hs⟩

/-- What a hyperarc asks of its image is what a correspondence says of the two. As both have as
many members, the members of the one are exactly the images of those of the other. -/
theorem hyperarcSuits_iff (hl : l.LabelsDistinct) (hhost : host.LabelsDistinct)
    (hwell : host.WellFormed) {key image : HyperArcKey} {x y : HyperArc}
    (hx : l.hyperarc? key = some x) (hy : host.hyperarc? image = some y)
    (hassigned : ∀ node ∈ x.members, a.node? node = some (f node))
    (hinj : Set.InjOn f l.nodes.live) :
    rule.HyperArcSuits a key x y ↔ x.Alike Extends f y := by
  have hcondition := hrule.hyperarcCondition_eq hx
  have hmet : (rule.hyperarcCondition key).Met x.toAttributes y.toAttributes ↔
      x.toAttributes.Alike Extends y.toAttributes := by
    rw [hcondition]
    exact met_exact_iff (hl.elements _ (Graph.mem_allAttributes_of_hyperarc? hx))
      (hhost.elements _ (Graph.mem_allAttributes_of_hyperarc? hy))
  have hnodup : (x.members.map f).Nodup :=
    (hrule.wellFormed.members_distinct key x hx).map_on fun n hn m hm heq =>
      hinj (hrule.wellFormed.members_alive key x hx n hn)
        (hrule.wellFormed.members_alive key x hx m hm) heq
  constructor
  · intro h
    have hlength : y.members.length = x.members.length := h.memberCount (by rw [hcondition]; rfl)
    have hsubset : x.members.map f ⊆ y.members := by
      intro node hnode
      obtain ⟨n, hn, rfl⟩ := List.mem_map.1 hnode
      obtain ⟨image, himage, hmem⟩ := h.members n hn
      cases (hassigned n hn).symm.trans himage
      exact hmem
    have hperm := (hnodup.subperm hsubset).perm_of_length_le
      (by rw [List.length_map, hlength])
    exact ⟨hmet.1 h.met, fun node => hperm.mem_iff.symm⟩
  · intro h
    have hperm : y.members.Perm (x.members.map f) :=
      (List.perm_ext_iff_of_nodup (hwell.members_distinct image y hy) hnodup).2 h.members
    refine ⟨hmet.2 h.toAlike, fun _ => ?_, fun member hmember => ?_⟩
    · rw [hperm.length_eq, List.length_map]
    · exact ⟨f member, hassigned member hmember, (h.members _).2 (List.mem_map_of_mem hmember)⟩

end

/-- What a node asks of its image, if that has the same degree. -/
theorem nodeSuits_iff (hl : l.LabelsDistinct) (hhost : host.LabelsDistinct) {key image : NodeKey}
    {x y : Node} (hx : l.node? key = some x) (hy : host.node? image = some y) :
    rule.NodeSuits host key image x y ↔
      x.Alike Extends y ∧ host.degree image = l.degree key := by
  have hcondition := hrule.nodeCondition_eq hx
  have hmet : (rule.nodeCondition key).Met x.toAttributes y.toAttributes ↔
      x.toAttributes.Alike Extends y.toAttributes := by
    rw [hcondition]
    exact met_exact_iff (hl.elements _ (Graph.mem_allAttributes_of_node? hx))
      (hhost.elements _ (Graph.mem_allAttributes_of_node? hy))
  rw [← hrule.patternDegree_eq]
  constructor
  · exact fun h => ⟨⟨hmet.1 h.met, h.typeTag (by rw [hcondition]; rfl)⟩,
      h.degree (by rw [hcondition]; rfl)⟩
  · rintro ⟨h, hdegree⟩
    exact ⟨hmet.2 h.toAlike, fun _ => h.typeTag, fun _ => hdegree⟩

end GrammarRule.Exacts

/-! ## Assignments and pairings

A correspondence is a function on keys, and an assignment is three lists of optional keys.
`images` and `ofImages` lead from one to the other; on the elements of the graph they are inverse
to each other. -/

namespace Assignment

/-- The images of an assignment as a pairing. -/
def images (a : Assignment) : (κ : Kind) → Key κ → Key κ
  | .node => fun key => (a.node? key).getD key
  | .arc => fun key => (a.arc? key).getD key
  | .hyperarc => fun key => (a.hyperarc? key).getD key

/-- The assignment that gives every element of a graph its image under a pairing. -/
def ofImages (l : Graph) (f : (κ : Kind) → Key κ → Key κ) : Assignment where
  nodes := l.nodes.keys.map fun key => some (f .node key)
  arcs := l.arcs.keys.map fun key => some (f .arc key)
  hyperarcs := l.hyperarcs.keys.map fun key => some (f .hyperarc key)

/-- There is a place for each live key of a compact registry. -/
theorem join_map_keys_eq_some_iff {κ : Kind} {α β : Type} {r : Registry κ α} (h : r.Compact)
    {f : Key κ → β} {key : Key κ} {image : β} :
    ((r.keys.map fun key => some (f key))[key.index]?).join = some image ↔
      r.contains key = true ∧ f key = image := by
  rw [h.join_getElem?_map_keys, Option.ite_none_right_eq_some, Option.some.injEq]

/-- If every place has a value, these are the values. -/
theorem filterMap_map_some {κ : Kind} {β : Type} (keys : List (Key κ)) (f : Key κ → β) :
    (keys.map fun key => some (f key)).filterMap id = keys.map f := by
  rw [List.filterMap_map]
  exact congrFun List.filterMap_eq_map' keys

variable {l : Graph} {f : (κ : Kind) → Key κ → Key κ}

/-- A node of the graph has the image that it is paired with. -/
theorem node?_ofImages (h : l.Compact) {key image : NodeKey} :
    (ofImages l f).node? key = some image ↔ l.hasNode key = true ∧ f .node key = image :=
  join_map_keys_eq_some_iff h.nodes

/-- An arc of the graph has the image that it is paired with. -/
theorem arc?_ofImages (h : l.Compact) {key image : ArcKey} :
    (ofImages l f).arc? key = some image ↔ l.arcs.contains key = true ∧ f .arc key = image :=
  join_map_keys_eq_some_iff h.arcs

/-- A hyperarc of the graph has the image that it is paired with. -/
theorem hyperarc?_ofImages (h : l.Compact) {key image : HyperArcKey} :
    (ofImages l f).hyperarc? key = some image ↔
      l.hyperarcs.contains key = true ∧ f .hyperarc key = image :=
  join_map_keys_eq_some_iff h.hyperarcs

/-- The images of nodes are those that the nodes are paired with. -/
theorem nodeImages_ofImages : (ofImages l f).nodeImages = l.nodes.keys.map (f .node) :=
  filterMap_map_some l.nodes.keys (f .node)

/-- The images of arcs are those that the arcs are paired with. -/
theorem arcImages_ofImages : (ofImages l f).arcImages = l.arcs.keys.map (f .arc) :=
  filterMap_map_some l.arcs.keys (f .arc)

/-- The images of hyperarcs are those that the hyperarcs are paired with. -/
theorem hyperarcImages_ofImages :
    (ofImages l f).hyperarcImages = l.hyperarcs.keys.map (f .hyperarc) :=
  filterMap_map_some l.hyperarcs.keys (f .hyperarc)

/-- There is a place for each element of the graph. -/
theorem shaped_ofImages (h : l.Compact) : (ofImages l f).Shaped l where
  nodes := (List.length_map _).trans h.nodes.length_keys
  arcs := (List.length_map _).trans h.arcs.length_keys
  hyperarcs := (List.length_map _).trans h.hyperarcs.length_keys

/-- The elements of the graph have an image, and no others. -/
theorem isSome_image?_ofImages {rule : GrammarRule} (h : rule.l.Compact) (e : PatternElement) :
    ((ofImages rule.l f).image? e).isSome = true ↔ rule.hasElement e = true := by
  rw [Option.isSome_iff_exists]
  cases e with
  | node key => exact ⟨fun ⟨_, he⟩ => ((node?_ofImages h).1 (map_index_eq_some.1 he)).1,
      fun he => ⟨_, image?_node.2 ((node?_ofImages h).2 ⟨he, rfl⟩)⟩⟩
  | arc key => exact ⟨fun ⟨_, he⟩ => ((arc?_ofImages h).1 (map_index_eq_some.1 he)).1,
      fun he => ⟨_, image?_arc.2 ((arc?_ofImages h).2 ⟨he, rfl⟩)⟩⟩
  | hyperarc key => exact ⟨fun ⟨_, he⟩ => ((hyperarc?_ofImages h).1 (map_index_eq_some.1 he)).1,
      fun he => ⟨_, image?_hyperarc.2 ((hyperarc?_ofImages h).2 ⟨he, rfl⟩)⟩⟩

variable {V : List Float → List Float → Prop} {host : Graph} (h : l.Corresponds V f host)
include h

/-- Under a correspondence the images are the elements of the other graph. -/
theorem mem_nodeImages_ofImages {key : NodeKey} :
    key ∈ (ofImages l f).nodeImages ↔ host.hasNode key = true := by
  rw [nodeImages_ofImages, h.nodes.perm_keys.mem_iff]
  exact Registry.mem_keys_iff

/-- Under a correspondence every arc of the other graph is an image. -/
theorem mem_arcImages_ofImages {key : ArcKey} :
    key ∈ (ofImages l f).arcImages ↔ host.arcs.contains key = true := by
  rw [arcImages_ofImages, h.arcs.perm_keys.mem_iff]
  exact Registry.mem_keys_iff

/-- Different elements are paired with different ones. -/
theorem distinct_ofImages : (ofImages l f).Distinct where
  nodes := by
    rw [nodeImages_ofImages]
    exact h.nodes.perm_keys.nodup_iff.2 host.nodes.nodup_keys
  arcs := by
    rw [arcImages_ofImages]
    exact h.arcs.perm_keys.nodup_iff.2 host.arcs.nodup_keys
  hyperarcs := by
    rw [hyperarcImages_ofImages]
    exact h.hyperarcs.perm_keys.nodup_iff.2 host.hyperarcs.nodup_keys

end Assignment

namespace GrammarRule.Exacts

variable {rule : GrammarRule} {l host : Graph} (hrule : rule.Exacts l)
  (hwell : host.WellFormed) (hl : l.LabelsDistinct) (hhost : host.LabelsDistinct)
include hrule hwell hl hhost

omit hwell hl hhost in
/-- Every element of the graph has an image. -/
theorem assigned {a : Assignment} (h : rule.OccursAt host .positive a) :
    (∀ key, l.hasNode key = true → a.node? key = some (a.images .node key)) ∧
      (∀ key, l.arcs.contains key = true → a.arc? key = some (a.images .arc key)) ∧
      ∀ key, l.hyperarcs.contains key = true →
        a.hyperarc? key = some (a.images .hyperarc key) := by
  obtain rfl := hrule.l_eq
  have hslot : ∀ e, rule.hasElement e = true → ∃ slot, a.image? e = some slot := fun e he =>
    Option.isSome_iff_exists.1 ((h.assigned e).2 ⟨he, by rw [hrule.isNegative_eq]; rfl⟩)
  have hgetD : ∀ {κ : Kind} {image : Option (Key κ)} {slot : Nat},
      image.map Key.index = some slot → ∀ key, image = some (image.getD key) := by
    intro κ image slot he key
    cases image with
    | none => exact nomatch he
    | some image => rfl
  refine ⟨fun key hkey => ?_, fun key hkey => ?_, fun key hkey => ?_⟩
  · obtain ⟨slot, he⟩ := hslot (.node key) hkey
    exact hgetD he key
  · obtain ⟨slot, he⟩ := hslot (.arc key) hkey
    exact hgetD he key
  · obtain ⟨slot, he⟩ := hslot (.hyperarc key) hkey
    exact hgetD he key

/-- **A match is a correspondence**, if the host has no more elements than the graph. Since the
images are distinct and as many as the elements of the host, nothing of the host is left over. -/
theorem corresponds_of_matches (hnodes : host.nodes.keys.length ≤ l.nodes.keys.length)
    (harcs : host.arcs.keys.length ≤ l.arcs.keys.length)
    (hhyperarcs : host.hyperarcs.keys.length ≤ l.hyperarcs.keys.length) {a : Assignment}
    (h : rule.Matches host a) : l.Corresponds Extends a.images host := by
  obtain rfl := hrule.l_eq
  have hoccurs := h.occurs
  obtain ⟨hnode, harc, hhyperarc⟩ := hrule.assigned hoccurs
  have hinj : Set.InjOn (a.images .node) rule.l.nodes.live := fun key hkey other hother heq =>
    hoccurs.distinct.node_inj (hnode key hkey) (heq ▸ hnode other hother)
  refine ⟨.of_injOn (fun key x hx => ?_) hinj hnodes,
    .of_injOn (fun key x hx => ?_) (fun key hkey other hother heq => ?_) harcs,
    .of_injOn (fun key x hx => ?_) (fun key hkey other hother heq => ?_) hhyperarcs⟩
  · have himage := hnode key (Registry.mem_live_of_get? hx)
    obtain ⟨x', y, hx', hy, hsuits⟩ := hoccurs.suits _ _ (Assignment.image?_node.2 himage)
    cases hx.symm.trans hx'
    exact ⟨y, hy, ((hrule.nodeSuits_iff hl hhost hx hy).1 hsuits).1⟩
  · have himage := harc key (Registry.mem_live_of_get? hx)
    obtain ⟨x', y, hx', hy, hsuits⟩ := hoccurs.suits _ _ (Assignment.image?_arc.2 himage)
    cases hx.symm.trans hx'
    refine ⟨y, hy, (hrule.arcSuits_iff hl hhost hx hy fun node hmem => ?_).1 hsuits⟩
    exact hnode node (hrule.wellFormed.ends_alive key x hx node hmem)
  · exact hoccurs.distinct.arc_inj (harc key hkey) (heq ▸ harc other hother)
  · have himage := hhyperarc key (Registry.mem_live_of_get? hx)
    obtain ⟨x', y, hx', hy, hsuits⟩ := hoccurs.suits _ _ (Assignment.image?_hyperarc.2 himage)
    cases hx.symm.trans hx'
    refine ⟨y, hy, (hrule.hyperarcSuits_iff hl hhost hwell hx hy (fun node hmem => ?_) hinj).1
      hsuits⟩
    exact hnode node (hrule.wellFormed.members_alive key x hx node hmem)
  · exact hoccurs.distinct.hyperarc_inj (hhyperarc key hkey) (heq ▸ hhyperarc other hother)

/-- An element fits what corresponds to it. Kind by kind this is the equivalence of fitting and
corresponding, used from right to left. Only the degree of a node has to be supplied. -/
theorem suits_ofImages {f : (κ : Kind) → Key κ → Key κ} (h : rule.l.Corresponds Extends f host)
    (e : PatternElement) (slot : Nat) (he : (Assignment.ofImages rule.l f).image? e = some slot) :
    rule.Suits host (.ofImages rule.l f) e slot := by
  obtain rfl := hrule.l_eq
  have hcompact := hrule.compact
  have hnode : ∀ key, rule.l.hasNode key = true →
      (Assignment.ofImages rule.l f).node? key = some (f .node key) :=
    fun key hkey => (Assignment.node?_ofImages hcompact).2 ⟨hkey, rfl⟩
  cases e with
  | node key =>
    obtain ⟨hkey, himage⟩ :=
      (Assignment.node?_ofImages hcompact).1 (Assignment.map_index_eq_some.1 he)
    obtain ⟨x, hx⟩ := Registry.contains_iff.1 hkey
    obtain ⟨y, hy, hxy⟩ := h.nodes.exists_same hx
    -- the rule asks for the degree, which a correspondence keeps
    have hdegree := h.degree_eq hrule.wellFormed hwell hkey
    rw [himage] at hy hdegree
    exact ⟨x, y, hx, hy, (hrule.nodeSuits_iff hl hhost hx hy).2 ⟨hxy, hdegree⟩⟩
  | arc key =>
    obtain ⟨hkey, himage⟩ :=
      (Assignment.arc?_ofImages hcompact).1 (Assignment.map_index_eq_some.1 he)
    obtain ⟨x, hx⟩ := Registry.contains_iff.1 hkey
    obtain ⟨y, hy, hxy⟩ := h.arcs.exists_same hx
    rw [himage] at hy
    refine ⟨x, y, hx, hy, (hrule.arcSuits_iff hl hhost hx hy fun node hmem => ?_).2 hxy⟩
    exact hnode node (hrule.wellFormed.ends_alive key x hx node hmem)
  | hyperarc key =>
    obtain ⟨hkey, himage⟩ :=
      (Assignment.hyperarc?_ofImages hcompact).1 (Assignment.map_index_eq_some.1 he)
    obtain ⟨x, hx⟩ := Registry.contains_iff.1 hkey
    obtain ⟨y, hy, hxy⟩ := h.hyperarcs.exists_same hx
    rw [himage] at hy
    refine ⟨x, y, hx, hy, (hrule.hyperarcSuits_iff hl hhost hwell hx hy (fun node hmem => ?_)
      h.nodes.bijOn.injOn).2 hxy⟩
    exact hnode node (hrule.wellFormed.members_alive key x hx node hmem)

/-- **A correspondence is a match.** -/
theorem matches_of_corresponds {f : (κ : Kind) → Key κ → Key κ}
    (h : l.Corresponds Extends f host) : rule.Matches host (.ofImages l f) := by
  obtain rfl := hrule.l_eq
  refine ⟨⟨Assignment.shaped_ofImages hrule.compact, fun e => ?_, Assignment.distinct_ofImages h,
    hrule.suits_ofImages hwell hl hhost h⟩, fun _ key hkey => ?_, fun _ key arc hkey _ _ => ?_, ?_⟩
  · rw [hrule.isNegative_eq, Assignment.isSome_image?_ofImages hrule.compact]
    exact (and_iff_left rfl).symm
  · exact (Assignment.mem_nodeImages_ofImages h).2 hkey
  · exact (Assignment.mem_arcImages_ofImages h).2 (Registry.contains_iff.2 ⟨arc, hkey⟩)
  · rintro ⟨e, -, hnegative⟩
    rw [hrule.isNegative_eq] at hnegative
    exact nomatch hnegative

/-- **The exact rule matches exactly if the graphs correspond**, for a host with no more
elements than the graph. -/
theorem matches_iff (hnodes : host.nodes.keys.length ≤ l.nodes.keys.length)
    (harcs : host.arcs.keys.length ≤ l.arcs.keys.length)
    (hhyperarcs : host.hyperarcs.keys.length ≤ l.hyperarcs.keys.length) :
    (∃ a, rule.Matches host a) ↔ ∃ f, l.Corresponds Extends f host :=
  ⟨fun ⟨_, h⟩ => ⟨_, hrule.corresponds_of_matches hwell hl hhost hnodes harcs hhyperarcs h⟩,
    fun ⟨_, h⟩ => ⟨_, hrule.matches_of_corresponds hwell hl hhost h⟩⟩

end GrammarRule.Exacts

end GraphGrammar
