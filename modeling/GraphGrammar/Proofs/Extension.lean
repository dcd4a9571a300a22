import GraphGrammar.Proofs.Degree

/-!
# One element further

What the search tries for one element of L is compared with what the element
asks of its image. Two things are shown of the slots that are tried. They are
unused and suit the element (`suits_of_mem_slots`); and no pruning loses a
match: if an occurrence extends what is assigned so far, its image of the
element is among the slots (`mem_slots`). The lists of candidates are where
this could go wrong, so there is one lemma for each of them.

The second fact is the one that needs care. Candidates for a node come from the neighbours of an
image that is there already or from all nodes of the host, and they are tested for their degree
before any arc has been assigned. None of these tests can turn away the image that an occurrence
gives, since the occurrence has the arcs too, and they are at their images.
-/

namespace GraphGrammar

open Occurrence (ofRule)

variable {host : Graph} {rule : GrammarRule} {phase : Phase} {a b : Assignment}

/-! ## What the tests say

Each test compares an element of L with an element of the host, at a time when the nodes at its
ends have images. Under this condition the test is what the element asks of its image. -/

namespace Occurrence

/-- The rule of an occurrence is the one it was set up for. -/
@[simp] theorem ofRule_rule (host : Graph) (rule : GrammarRule) :
    (ofRule host rule).rule = rule := rfl

/-- The host of an occurrence is the one it was set up for. -/
@[simp] theorem ofRule_host (host : Graph) (rule : GrammarRule) :
    (ofRule host rule).host = host := rfl

/-- The test of one end, once the node at it has an image. -/
theorem endFits_iff {condition : ArcCondition} {wanted given : Option NodeKey}
    (h : ∀ node, wanted = some node → (a.node? node).isSome = true) :
    endFits condition (wanted.bind a.node?) given = true ↔ condition.EndMet a wanted given := by
  cases wanted with
  | none =>
    show (!condition.danglingMeansDangling || given.isNone) = true ↔
      (condition.danglingMeansDangling = true → given = none)
    rw [Bool.or_eq_true, Bool.not_eq_true', Option.isNone_iff_eq_none, ← Bool.not_eq_true]
    exact imp_iff_not_or.symm
  | some node =>
    obtain ⟨image, himage⟩ := Option.isSome_iff_exists.1 (h node rfl)
    show endFits condition (a.node? node) given = true ↔
      ∃ image, a.node? node = some image ∧ given = some image
    rw [himage]
    show (given == some image) = true ↔ _
    rw [beq_iff_eq]
    constructor
    · exact fun heq => ⟨image, rfl, heq⟩
    · rintro ⟨_, heq, hgiven⟩
      exact hgiven.trans heq.symm

/-- The test of both ends: along the host arc, or against it if the arc of L has no orientation
or the host arc points both ways. -/
theorem endsFit_iff {condition : ArcCondition} {arc given : Arc}
    (h : ∀ node ∈ arc.ends, (a.node? node).isSome = true) :
    endsFit condition a arc given = true ↔
      (arc.isOriented = true → given.directed = true) ∧
        (condition.LiesAlong a arc given.source given.target ∨
          ((arc.isOriented = false ∨ given.doublyDirected = true) ∧
            condition.LiesAlong a arc given.target given.source)) := by
  have hlies : ∀ source target, (endFits condition (arc.source.bind a.node?) source
      && endFits condition (arc.target.bind a.node?) target) = true ↔
        condition.LiesAlong a arc source target := fun source target => by
    rw [Bool.and_eq_true, endFits_iff fun node he => h node (Arc.mem_ends.2 (.inl he)),
      endFits_iff fun node he => h node (Arc.mem_ends.2 (.inr he))]
    rfl
  unfold endsFit
  by_cases horiented : arc.isOriented = true
  · rw [if_pos horiented, Bool.and_eq_true, Bool.or_eq_true, hlies,
      Bool.and_eq_true given.doublyDirected, hlies, horiented]
    exact and_congr ⟨fun h _ => h, fun h => h rfl⟩ (or_congr_right (and_congr_left fun _ =>
      (or_iff_right nofun).symm))
  · rw [if_neg horiented, Bool.or_eq_true, hlies, hlies, Bool.eq_false_iff.2 horiented]
    exact (or_congr_right (and_iff_right (.inl rfl)).symm).trans (and_iff_right nofun).symm

/-- The test of an arc, once the nodes at its ends have images. The test of the two ends is the
part that needs those images; labels, variables and flags are compared in the same words on both
sides. -/
theorem arcFits_iff {key image : ArcKey}
    (h : ∀ arc, rule.l.arc? key = some arc → ∀ node ∈ arc.ends, (a.node? node).isSome = true) :
    (ofRule host rule).arcFits a key image = true ↔
      image ∉ a.arcImages ∧ rule.Suits host a (.arc key) image.index := by
  unfold arcFits ofRule
  show _ = true ↔ _ ∧ ∃ arc given, rule.l.arc? key = some arc ∧ host.arc? image = some given ∧ _
  dsimp only
  rw [Bool.and_eq_true, Bool.not_eq_true', ← Bool.not_eq_true, List.contains_iff_mem]
  refine and_congr_right fun _ => ?_
  cases harc : rule.l.arc? key with
  | none => simp
  | some arc => cases hgiven : host.arc? image with
    | none => simp
    | some given =>
      show ((rule.arcCondition key).admits arc.toAttributes given.toAttributes
        && (!(rule.arcCondition key).directionIsEqual
          || (arc.directed == given.directed && arc.doublyDirected == given.doublyDirected))
        && endsFit (rule.arcCondition key) a arc given) = true ↔ _
      rw [Bool.and_eq_true, Bool.and_eq_true, Condition.admits_iff, Bool.or_eq_true,
        Bool.not_eq_true', ← Bool.not_eq_true, ← imp_iff_not_or, Bool.and_eq_true, beq_iff_eq,
        beq_iff_eq, endsFit_iff (h arc harc)]
      constructor
      · rintro ⟨⟨hmet, hflags⟩, hdirected, hlies⟩
        have hflags' := fun hcondition => (hflags hcondition).imp Eq.symm Eq.symm
        exact ⟨arc, given, rfl, rfl, hmet, hflags', hdirected, hlies⟩
      · rintro ⟨_, _, heq, heq', hsuits⟩
        cases heq
        cases heq'
        have hflags := fun hcondition => (hsuits.flags hcondition).imp Eq.symm Eq.symm
        exact ⟨⟨hsuits.met, hflags⟩, hsuits.directed, hsuits.lies⟩

/-- The test of a hyperarc says exactly that the image is unused and suits. Unlike that of an arc
it need not know that the members have images: a member without one fails the test and the
condition alike. -/
theorem hyperarcFits_iff {key image : HyperArcKey} :
    (ofRule host rule).hyperarcFits a key image = true ↔
      image ∉ a.hyperarcImages ∧ rule.Suits host a (.hyperarc key) image.index := by
  unfold hyperarcFits ofRule
  show _ = true ↔ _ ∧ ∃ hyperarc given, rule.l.hyperarc? key = some hyperarc ∧
    host.hyperarc? image = some given ∧ _
  dsimp only
  rw [Bool.and_eq_true, Bool.not_eq_true', ← Bool.not_eq_true, List.contains_iff_mem]
  refine and_congr_right fun _ => ?_
  cases hhyperarc : rule.l.hyperarc? key with
  | none => simp
  | some hyperarc => cases hgiven : host.hyperarc? image with
    | none => simp
    | some given =>
      -- the nodes that the hyperarc refers to may have no images yet, and then it does not fit
      have hmember : ∀ member, (a.node? member).any given.contains = true ↔
          ∃ image, a.node? member = some image ∧ image ∈ given.members := by
        intro member
        rw [Option.any_eq_true]
        exact exists_congr fun image => and_congr_right fun _ => HyperArc.contains_iff
      show ((rule.hyperarcCondition key).admits hyperarc.toAttributes given.toAttributes
        && (!(rule.hyperarcCondition key).strictMemberCount
          || hyperarc.members.length == given.members.length)
        && hyperarc.members.all fun member => (a.node? member).any given.contains) = true ↔ _
      rw [Bool.and_eq_true, Bool.and_eq_true, Condition.admits_iff, Bool.or_eq_true,
        Bool.not_eq_true', ← Bool.not_eq_true, ← imp_iff_not_or, beq_iff_eq, List.all_eq_true]
      simp only [hmember]
      constructor
      · rintro ⟨⟨hmet, hcount⟩, hmembers⟩
        have hcount' := fun hcondition => (hcount hcondition).symm
        exact ⟨hyperarc, given, rfl, rfl, hmet, hcount', hmembers⟩
      · rintro ⟨_, _, heq, heq', hsuits⟩
        cases heq
        cases heq'
        have hcount := fun hcondition => (hsuits.memberCount hcondition).symm
        exact ⟨⟨hsuits.met, hcount⟩, hsuits.members⟩

/-- The test of a node says besides that it is joined to the images of its neighbours as L asks.
-/
theorem nodeFits_iff {key image : NodeKey} :
    (ofRule host rule).nodeFits phase a key image = true ↔
      image ∉ a.nodeImages ∧
        (∃ node given, rule.l.node? key = some node ∧ host.node? image = some given ∧
          (ofRule host rule).nodePasses phase key image node given = true) ∧
        (ofRule host rule).nodeConnects phase a key image = true := by
  unfold nodeFits
  show ((_ && _) && _) = true ↔ _
  rw [Bool.and_eq_true, Bool.and_eq_true, Bool.not_eq_true', ← Bool.not_eq_true,
    List.contains_iff_mem, and_assoc]
  refine and_congr_right fun _ => and_congr_left fun _ => ?_
  rw [ofRule_rule, ofRule_host]
  cases rule.l.node? key with
  | none => simp
  | some node => cases host.node? image with
    | none => simp
    | some given =>
      refine ⟨fun h => ⟨node, given, rfl, rfl, h⟩, ?_⟩
      rintro ⟨_, _, heq, heq', h⟩
      cases heq
      cases heq'
      exact h

/-- The test of a node is what it asks of its image, and that the degree is not too small. If the
condition asks for the very degree, the comparison that prunes says nothing new, and otherwise it
is all that is said of the degree. -/
theorem nodePasses_iff (hhost : host.WellFormed) (hrule : rule.Coherent) {key image : NodeKey}
    {node given : Node} (hkey : rule.l.hasNode key = true) (himage : host.hasNode image = true)
    (hphase : phase.assigns (rule.isNegativeNode key) = true) :
    (ofRule host rule).nodePasses phase key image node given = true ↔
      rule.NodeSuits host key image node given ∧
        ((ofRule host rule).pattern phase).degree key
          ≤ (ofRule host rule).surroundings.degree image := by
  have hdegree : ((ofRule host rule).pattern phase).degree key = rule.patternDegree key :=
    degree_pattern hrule hkey hphase
  have hdegree' : (ofRule host rule).surroundings.degree image = host.degree image := by
    rw [surroundings_ofRule, Adjacency.degree_ofGraph hhost himage]
  unfold nodePasses
  show ((rule.nodeCondition key).admits node.toAttributes given.toAttributes
    && (!(rule.nodeCondition key).restrictToType || node.typeTag == given.typeTag)
    && (if (rule.nodeCondition key).strictDegree then _ == _ else decide _)) = true ↔ _
  rw [Bool.and_eq_true, Bool.and_eq_true, Condition.admits_iff, Bool.or_eq_true, Bool.not_eq_true',
    ← Bool.not_eq_true, ← imp_iff_not_or, beq_iff_eq]
  by_cases hstrict : (rule.nodeCondition key).strictDegree = true
  · rw [if_pos hstrict, beq_iff_eq]
    constructor
    · rintro ⟨⟨hmet, htag⟩, heq⟩
      refine ⟨⟨hmet, fun h => (htag h).symm, fun _ => ?_⟩, Nat.le_of_eq heq.symm⟩
      rw [← hdegree', heq, hdegree]
    · rintro ⟨h, -⟩
      refine ⟨⟨h.met, fun hrestrict => (h.typeTag hrestrict).symm⟩, ?_⟩
      rw [hdegree', h.degree hstrict, hdegree]
  · rw [if_neg hstrict, decide_eq_true_iff]
    constructor
    · rintro ⟨⟨hmet, htag⟩, hle⟩
      exact ⟨⟨hmet, fun h => (htag h).symm, fun h => absurd h hstrict⟩, hle⟩
    · rintro ⟨h, hle⟩
      exact ⟨⟨h.met, fun hrestrict => (h.typeTag hrestrict).symm⟩, hle⟩

/-! ## The slots that are tried

From here on an extension is told by the slot that it puts the element in. -/

/-- The slots of the images that are tried for an element, in order. -/
def slots (s : Occurrence) (phase : Phase) (a : Assignment) : PatternElement → List Nat
  | .node key => ((s.nodeCandidates phase a key).filter (s.nodeFits phase a key)).map Key.index
  | .arc key => ((s.arcCandidates a key).filter (s.arcFits a key)).map Key.index
  | .hyperarc key => ((s.hyperarcCandidates a key).filter (s.hyperarcFits a key)).map Key.index

/-- The extensions of an assignment are obtained by placing the element in each of its slots. -/
theorem extensions_eq (s : Occurrence) (e : PatternElement) :
    s.extensions phase a e = (s.slots phase a e).map (a.place e) := by
  cases e <;> (rw [slots, List.map_map]; rfl)

section Step

variable {e : PatternElement} {rest : List PatternElement} {slot : Nat}

/-- What suits a node of L is a live node of the host. -/
theorem hasNode_of_suits {key image : NodeKey} (h : rule.Suits host a (.node key) image.index) :
    host.hasNode image = true := by
  obtain ⟨_, given, -, hgiven, -⟩ := h
  exact Option.isSome_iff_exists.2 ⟨given, hgiven⟩

/-- An image of a node is a live node of the host. -/
theorem image_alive (ha : rule.Underway host phase rest a) {key image : NodeKey}
    (h : a.node? key = some image) : host.hasNode image = true :=
  hasNode_of_suits (ha.suits _ _ (Assignment.image?_node.2 h))

/-- The nodes that an element refers to have images when its turn has come. They come before it
in the plan, and a positive element refers to positive nodes only, so they are in the plan at
all. -/
theorem nodes_assigned (hrule : rule.Coherent) (hplan : rule.Plans phase (e :: rest))
    (ha : rule.Underway host phase (e :: rest) a) :
    ∀ node ∈ rule.nodesAt e, (a.node? node).isSome = true := by
  intro node hnode
  obtain ⟨helement, hassigns⟩ := hplan.elements e List.mem_cons_self
  have hkind : e.kind ≠ .node := by
    intro h
    cases e with
    | node _ => exact nomatch hnode
    | arc _ => exact nomatch h
    | hyperarc _ => exact nomatch h
  -- the plan puts nodes before arcs and hyperarcs, so none is still to come
  have hnew : PatternElement.node node ∉ e :: rest := by
    intro hmem
    rcases List.mem_cons.1 hmem with heq | hmem
    · exact hkind (heq ▸ rfl)
    · exact hkind (List.rel_of_pairwise_cons hplan.nodes_first hmem rfl)
  have hattached : rule.l.hasNode node = true ∧
      (rule.isNegative e = false → rule.isNegativeNode node = false) := by
    cases e with
    | node _ => exact nomatch hnode
    | arc key =>
      obtain ⟨arc, harc⟩ := Option.isSome_iff_exists.1 helement
      rw [GrammarRule.nodesAt, Graph.arc?, harc] at hnode
      exact ⟨hrule.l_wellFormed.ends_alive key arc harc node hnode,
        fun hpositive => hrule.positive_ends key arc harc hpositive node hnode⟩
    | hyperarc key =>
      obtain ⟨hyperarc, hhyperarc⟩ := Option.isSome_iff_exists.1 helement
      rw [GrammarRule.nodesAt, Graph.hyperarc?, hhyperarc] at hnode
      exact ⟨hrule.l_wellFormed.members_alive key hyperarc hhyperarc node hnode,
        fun hpositive => hrule.positive_members key hyperarc hhyperarc hpositive node hnode⟩
  have hcovers : phase.covers (rule.isNegativeNode node) = true := by
    cases phase with
    | positive =>
      rw [hattached.2 ((Bool.not_eq_true' _).mp hassigns)]
      rfl
    | negative => rfl
  have hsome := (ha.assigned (.node node)).2 ⟨⟨hattached.1, hcovers⟩, hnew⟩
  exact Option.isSome_map.symm.trans hsome

/-- **What is tried suits**, and is not an image yet. -/
theorem suits_of_mem_slots (hhost : host.WellFormed) (hrule : rule.Coherent)
    (hplan : rule.Plans phase (e :: rest)) (ha : rule.Underway host phase (e :: rest) a)
    (h : slot ∈ (ofRule host rule).slots phase a e) :
    a.Unused e slot ∧ rule.Suits host a e slot := by
  obtain ⟨helement, hassigns⟩ := hplan.elements e List.mem_cons_self
  have hassigned := nodes_assigned hrule hplan ha
  cases e with
  | node key =>
    obtain ⟨image, hmem, rfl⟩ := List.mem_map.1 h
    obtain ⟨hunused, ⟨node, given, hnode, hgiven, hpasses⟩, -⟩ :=
      nodeFits_iff.1 (List.mem_filter.1 hmem).2
    have himage : host.hasNode image = true := Option.isSome_iff_exists.2 ⟨given, hgiven⟩
    have hsuits := ((nodePasses_iff hhost hrule helement himage hassigns).1 hpasses).1
    exact ⟨Assignment.unused_node.2 hunused, node, given, hnode, hgiven, hsuits⟩
  | arc key =>
    obtain ⟨image, hmem, rfl⟩ := List.mem_map.1 h
    obtain ⟨hunused, hsuits⟩ := (arcFits_iff fun arc harc => by
      rwa [GrammarRule.nodesAt, harc] at hassigned).1 (List.mem_filter.1 hmem).2
    exact ⟨Assignment.unused_arc.2 hunused, hsuits⟩
  | hyperarc key =>
    obtain ⟨image, hmem, rfl⟩ := List.mem_map.1 h
    obtain ⟨hunused, hsuits⟩ := hyperarcFits_iff.1 (List.mem_filter.1 hmem).2
    exact ⟨Assignment.unused_hyperarc.2 hunused, hsuits⟩

/-- The neighbours that have images already, and the node itself if it has a
loop, are joined to the image of a node. -/
theorem nodeConnects_of_occurs (hb : rule.OccursAt host phase b) (hab : a.PartOf b)
    {key image : NodeKey} (hl : rule.l.hasNode key = true) (hkey : b.node? key = some image) :
    (ofRule host rule).nodeConnects phase a key image = true := by
  refine List.all_eq_true.2 fun neighbor hneighbor => ?_
  obtain ⟨other, hother, harc⟩ := exists_neighbor hb hkey hl hneighbor
  have hjoined : (ofRule host rule).surroundings.joined image other = true :=
    Surroundings.joined_ofGraph_iff.2 harc
  split
  · rename_i other' hother'
    split at hother'
    · rename_i heq
      cases hother'
      cases (heq ▸ hother).symm.trans hkey
      exact hjoined
    · cases (hab.node hother').symm.trans hother
      exact hjoined
  · rfl

/-- **The image of a node is among its candidates.** If a neighbour in L has an image, the
candidates are the neighbours of that image in the host, and the arc between the two has an image
as well, so its ends are neighbours. -/
theorem mem_nodeCandidates (ha : rule.Underway host phase (e :: rest) a)
    (hb : rule.OccursAt host phase b) (hab : a.PartOf b) {key image : NodeKey}
    (hl : rule.l.hasNode key = true) (hkey : b.node? key = some image)
    (himage : host.hasNode image = true) :
    image ∈ (ofRule host rule).nodeCandidates phase a key := by
  unfold nodeCandidates
  split
  · rename_i other hother
    obtain ⟨neighbor, hmem, hneighbor⟩ := List.exists_of_findSome?_eq_some hother
    obtain ⟨other', hother', arcKey, arc, harc, hjoins⟩ :=
      exists_neighbor hb hkey hl (List.mem_filter.1 hmem).1
    cases (hab.node hneighbor).symm.trans hother'
    rw [surroundings_ofRule]
    exact (Adjacency.mem_neighbors_ofGraph (Registry.lt_of_contains (image_alive ha hneighbor))).2
      ⟨arcKey, arc, harc, hjoins.symm⟩
  · exact Registry.mem_keys_iff.2 himage

/-- The image of an arc has an end at the image of each end. -/
theorem mem_ends_of_suits {key : ArcKey} {arc given : Arc} (h : rule.ArcSuits a key arc given)
    {node image : NodeKey} (hnode : node ∈ arc.ends) (himage : a.node? node = some image) :
    image ∈ given.ends := by
  rw [← List.one_le_count_iff] at hnode ⊢
  exact hnode.trans (h.count_ends_le himage)

/-- **The image of an arc is among its candidates**: if an end of the arc is at a node, the image
is listed at the image of that node. -/
theorem mem_arcCandidates (hhost : host.WellFormed) {key image : ArcKey}
    (h : rule.Suits host a (.arc key) image.index) :
    image ∈ (ofRule host rule).arcCandidates a key := by
  obtain ⟨arc, given, harc, hgiven, hsuits⟩ := h
  unfold arcCandidates ofRule
  dsimp only
  rw [harc]
  dsimp only
  split
  · rename_i end' hend
    have hmem : end' ∈ given.ends := by
      rcases Option.or_eq_some_iff.1 hend with hsource | ⟨-, htarget⟩
      · obtain ⟨node, hnode, himage⟩ := Option.bind_eq_some_iff.1 hsource
        exact mem_ends_of_suits hsuits (Arc.mem_ends.2 (.inl hnode)) himage
      · obtain ⟨node, hnode, himage⟩ := Option.bind_eq_some_iff.1 htarget
        exact mem_ends_of_suits hsuits (Arc.mem_ends.2 (.inr hnode)) himage
    show image ∈ (ofRule host rule).surroundings.incident end'
    rw [surroundings_ofRule, Adjacency.incident_ofGraph
      (hhost.ends_alive image given hgiven end' hmem),
      Graph.incidentArcs]
    exact List.mem_map.2 ⟨(image, given), List.mem_filter.2
      ⟨Registry.mem_entries_iff.2 hgiven, Arc.touches_iff.2 hmem⟩, rfl⟩
  · exact Registry.mem_keys_iff.2 (Option.isSome_iff_exists.2 ⟨given, hgiven⟩)

/-- **The image of a hyperarc is among its candidates**: it contains the image of the first
member, as of every other one. -/
theorem mem_hyperarcCandidates {key image : HyperArcKey}
    (h : rule.Suits host a (.hyperarc key) image.index) :
    image ∈ (ofRule host rule).hyperarcCandidates a key := by
  obtain ⟨hyperarc, given, hhyperarc, hgiven, hsuits⟩ := h
  unfold hyperarcCandidates ofRule
  dsimp only
  rw [hhyperarc, Option.bind_some]
  split
  · rename_i first hfirst
    obtain ⟨member, hmember, himage⟩ := Option.bind_eq_some_iff.1 hfirst
    obtain ⟨first', hfirst', hmem⟩ := hsuits.members member (List.mem_of_head? hmember)
    cases himage.symm.trans hfirst'
    exact List.mem_map.2 ⟨(image, given), List.mem_filter.2
      ⟨Registry.mem_entries_iff.2 hgiven, HyperArc.contains_iff.2 hmem⟩, rfl⟩
  · exact Registry.mem_keys_iff.2 (Option.isSome_iff_exists.2 ⟨given, hgiven⟩)

/-- **No pruning loses a match**: the image that an occurrence gives an element is tried,
whatever part of the occurrence is assigned so far. Each kind has two parts to it: the image is
among the candidates, by the lemma for the kind, and it passes the test, since it is unused and
suits. -/
theorem mem_slots (hhost : host.WellFormed) (hrule : rule.Coherent)
    (hplan : rule.Plans phase (e :: rest)) (ha : rule.Underway host phase (e :: rest) a)
    (hb : rule.OccursAt host phase b) (hab : a.PartOf b) (hslot : b.image? e = some slot) :
    slot ∈ (ofRule host rule).slots phase a e := by
  obtain ⟨helement, hassigns⟩ := hplan.elements e List.mem_cons_self
  -- what is used is used for an element that is assigned, and this one is not
  have hunused : a.Unused e slot := by
    intro other hkind hother
    obtain rfl := Assignment.distinct_iff.1 hb.distinct other e slot hkind (hab _ _ hother) hslot
    have hassigned := (ha.assigned other).1 (Option.isSome_iff_exists.2 ⟨slot, hother⟩)
    exact hassigned.2 List.mem_cons_self
  have hsuits : rule.Suits host a e slot := by
    refine (hb.suits e slot hslot).transfer fun node hnode image himage => ?_
    obtain ⟨image', himage'⟩ :=
      Option.isSome_iff_exists.1 (nodes_assigned hrule hplan ha node hnode)
    cases (hab.node himage').symm.trans himage
    exact himage'
  cases e with
  | node key =>
    have himage : host.hasNode ⟨slot⟩ = true := hasNode_of_suits hsuits
    obtain ⟨node, given, hnode, hgiven, hnodeSuits⟩ := hsuits
    have hkey : b.node? key = some ⟨slot⟩ := Assignment.map_index_eq_some.1 hslot
    have hpasses := (nodePasses_iff hhost hrule helement himage hassigns).2
      ⟨hnodeSuits, degree_le hrule hb hkey helement himage⟩
    have hfits := nodeFits_iff.2 ⟨Assignment.unused_node.1 hunused,
      ⟨node, given, hnode, hgiven, hpasses⟩, nodeConnects_of_occurs hb hab helement hkey⟩
    exact List.mem_map.2 ⟨⟨slot⟩, List.mem_filter.2
      ⟨mem_nodeCandidates ha hb hab helement hkey himage, hfits⟩, rfl⟩
  | arc key =>
    have hfits : (ofRule host rule).arcFits a key ⟨slot⟩ = true := (arcFits_iff fun arc harc => by
      have hassigned := nodes_assigned hrule hplan ha
      rwa [GrammarRule.nodesAt, harc] at hassigned).2 ⟨Assignment.unused_arc.1 hunused, hsuits⟩
    exact List.mem_map.2
      ⟨⟨slot⟩, List.mem_filter.2 ⟨mem_arcCandidates hhost hsuits, hfits⟩, rfl⟩
  | hyperarc key =>
    have hfits := hyperarcFits_iff.2 ⟨Assignment.unused_hyperarc.1 hunused, hsuits⟩
    exact List.mem_map.2
      ⟨⟨slot⟩, List.mem_filter.2 ⟨mem_hyperarcCandidates hsuits, hfits⟩, rfl⟩

/-- No slot is tried twice. Candidates are read off a table or a registry, and neither lists a
key twice; what the tests do is leave some out. -/
theorem nodup_slots (ha : rule.Underway host phase (e :: rest) a) :
    ((ofRule host rule).slots phase a e).Nodup := by
  have hmap : ∀ {κ : Kind} {keys : List (Key κ)} (p : Key κ → Bool), keys.Nodup →
      ((keys.filter p).map Key.index).Nodup := fun p hnodup =>
    (hnodup.filter p).map fun _ _ heq => congrArg Key.mk heq
  cases e with
  | node key =>
    refine hmap _ ?_
    unfold nodeCandidates
    split
    · rename_i image himage
      -- the candidates are the neighbours of a live node, each of which the tables list once
      obtain ⟨neighbor, -, hneighbor⟩ := List.exists_of_findSome?_eq_some himage
      rw [surroundings_ofRule]
      exact Adjacency.nodup_neighbors_build (Registry.lt_of_contains (image_alive ha hneighbor)) _ _
    · exact host.nodes.nodup_keys
  | arc key =>
    refine hmap _ ?_
    unfold arcCandidates
    split
    · exact List.nodup_nil
    · split
      · rename_i arc _ _ image himage
        have halive : host.hasNode image = true := by
          rcases Option.or_eq_some_iff.1 himage with hsource | ⟨-, htarget⟩
          · obtain ⟨node, -, hnode⟩ := Option.bind_eq_some_iff.1 hsource
            exact image_alive ha hnode
          · obtain ⟨node, -, hnode⟩ := Option.bind_eq_some_iff.1 htarget
            exact image_alive ha hnode
        rw [surroundings_ofRule, Adjacency.incident_ofGraph halive]
        exact Registry.nodup_keys_filter ..
      · exact host.arcs.nodup_keys
  | hyperarc key =>
    refine hmap _ ?_
    unfold hyperarcCandidates
    split
    · exact Registry.nodup_keys_filter ..
    · exact host.hyperarcs.nodup_keys

end Step

end Occurrence

end GraphGrammar
