import GraphGrammar.Proofs.Comatch

/-!
# How the context is connected afterwards

The image of a context arc or hyperarc is reconnected where L and R name
different nodes. A given context may leave out a node that L and R both name
(`GrammarRule.LeavesOut`): the node of L is deleted then and that of R is a new
one, but their names are alike, and so the image is not connected to the new
node. An end that was at the deleted node stays dangling.

Everywhere else the image is connected as in R: an end is at the place of its
node of R, an end that R lets go of dangles, the nodes of R are members, and
those that only L has are not (`Applied.arc_reconnected`,
`Applied.hyperarc_reconnected`).

A derived context leaves out nothing that both sides name, so for a rule with such a context
there is no exception. With a given context there may be one, and here it is said for each end
and each member whether it is one.
-/

namespace GraphGrammar

variable {host : Graph} {rule : GrammarRule} {o : RuleOption} {d done : Derivation}
  {free : List ArcKey}

/-! ## Nodes of one name

The applier compares names, and the correspondence pairs nodes. A node of L and one of R with the
same name are a pair, or the context leaves them out; there is no third possibility. -/

/-- **A node that L and R both name, but the context does not.** -/
def GrammarRule.LeavesOut (rule : GrammarRule) (lNode rNode : NodeKey) : Prop :=
  ∃ name, rule.l.nodes.find? name = some lNode ∧ rule.r.nodes.find? name = some rNode ∧
    rule.k.nodes.names.contains name = false

namespace GrammarRule

variable {lNode rNode : NodeKey}

/-- Nodes that are named alike are a pair of the context, or left out of it. -/
theorem right?_or_leavesOut_of_nodeName (hrule : rule.Coherent) (hr : rule.r.hasNode rNode = true)
    (h : rule.l.nodeName? (some lNode) = rule.r.nodeName? (some rNode)) :
    rule.contextNodes.right? lNode = some rNode ∨ rule.LeavesOut lNode rNode := by
  obtain ⟨name, hname⟩ := Graph.exists_nodeName hr
  obtain ⟨before, hbefore, rfl⟩ := Option.map_eq_some_iff.1 (h.trans hname)
  obtain ⟨after, hafter, hsame⟩ := Option.map_eq_some_iff.1 hname
  have hlFind : rule.l.nodes.find? before.name = some lNode :=
    hrule.l_wellFormed.nodes_indexed.find?_eq_some hbefore
  have hrFind : rule.r.nodes.find? before.name = some rNode :=
    hsame ▸ hrule.r_wellFormed.nodes_indexed.find?_eq_some hafter
  cases hk : rule.k.nodes.names.contains before.name with
  | true => exact .inl ((hrule.node_pairs.right?_iff _ _).2 ⟨before.name, hk, hlFind, hrFind⟩)
  | false => exact .inr ⟨before.name, hlFind, hrFind, hk⟩

/-- Such nodes are named alike, which is why an end at them is not reconnected. -/
theorem LeavesOut.nodeName?_eq (hrule : rule.Coherent) (h : rule.LeavesOut lNode rNode) :
    rule.l.nodeName? (some lNode) = rule.r.nodeName? (some rNode) := by
  obtain ⟨name, hl, hr, -⟩ := h
  obtain ⟨before, hbefore, hname⟩ := hrule.l_wellFormed.nodes_indexed.exists_of_find? hl
  obtain ⟨after, hafter, hname'⟩ := hrule.r_wellFormed.nodes_indexed.exists_of_find? hr
  have hbefore : rule.l.node? lNode = some before := hbefore
  have hafter : rule.r.node? rNode = some after := hafter
  show (rule.l.node? lNode).map (·.name) = (rule.r.node? rNode).map (·.name)
  rw [hbefore, hafter]
  exact congrArg some (hname.trans hname'.symm)

/-- A node that is left out has no counterpart. -/
theorem LeavesOut.right?_eq_none (hrule : rule.Coherent) (h : rule.LeavesOut lNode rNode) :
    rule.contextNodes.right? lNode = none := by
  obtain ⟨name, hl, -, hk⟩ := h
  refine Option.eq_none_iff_forall_ne_some.2 fun other hright => ?_
  obtain ⟨name', hk', hl', -⟩ := (hrule.node_pairs.right?_iff lNode other).1 hright
  cases hrule.l_wellFormed.nodes_indexed.eq_of_find? hl' hl
  exact Bool.false_ne_true (hk.symm.trans hk')

/-- A node that is left out is no counterpart. -/
theorem LeavesOut.right?_ne_some (hrule : rule.Coherent) (h : rule.LeavesOut lNode rNode)
    (other : NodeKey) : rule.contextNodes.right? other ≠ some rNode := by
  obtain ⟨name, -, hr, hk⟩ := h
  intro hright
  obtain ⟨name', hk', -, hr'⟩ := (hrule.node_pairs.right?_iff other rNode).1 hright
  cases hrule.r_wellFormed.nodes_indexed.eq_of_find? hr' hr
  exact Bool.false_ne_true (hk.symm.trans hk')

/-- The image of a node that is left out is deleted. -/
theorem LeavesOut.mem_goneNodes (hrule : rule.Coherent) (h : rule.LeavesOut lNode rNode)
    {image : NodeKey} (himage : o.node? lNode = some image) :
    image ∈ rule.goneNodes o.toAssignment := by
  obtain ⟨_, hl, -, -⟩ := id h
  obtain ⟨before, hbefore, -⟩ := hrule.l_wellFormed.nodes_indexed.exists_of_find? hl
  exact Correspondence.mem_gone.2 ⟨lNode, Registry.mem_keys_iff.2 (Registry.contains_iff.2
    ⟨before, hbefore⟩), h.right?_eq_none hrule, himage⟩

/-- A node of R that is where the host has a node is at the image of its
counterpart. -/
theorem exists_right?_of_placeAt (hrule : rule.Coherent) {place : NodeKey}
    (hplace : host.hasNode place = true)
    (h : rule.placeAt host o.toAssignment rNode = some place) :
    ∃ lNode, rule.contextNodes.right? lNode = some rNode ∧ o.node? lNode = some place := by
  rcases rule.placeAt_eq_some.1 h with ⟨lNode, hleft, himage⟩ | ⟨-, i, -, hi⟩
  · exact ⟨lNode, (hrule.node_pairs.left?_iff lNode rNode).1 hleft, himage⟩
  · exact absurd (List.mem_of_getElem? hi)
      (Registry.notMem_nextKeys (Registry.lt_of_contains hplace) _)

/-- **Nodes of a pair are named alike.** -/
theorem nodeName?_eq_of_right? (hrule : rule.Coherent)
    (h : rule.contextNodes.right? lNode = some rNode) :
    rule.l.nodeName? (some lNode) = rule.r.nodeName? (some rNode) := by
  obtain ⟨before, after, hbefore, hafter, hname⟩ := hrule.node_pairs.exists_elements
    hrule.l_wellFormed.nodes_indexed hrule.r_wellFormed.nodes_indexed h
  have hbefore : rule.l.node? lNode = some before := hbefore
  have hafter : rule.r.node? rNode = some after := hafter
  show (rule.l.node? lNode).map (·.name) = (rule.r.node? rNode).map (·.name)
  rw [hbefore, hafter]
  exact congrArg some hname

/-- An end that L and R name alike is at some node of L if it is at some node of R. -/
theorem exists_eq_some_of_nodeName? {l r : Graph} {end? : Option NodeKey}
    (hr : r.hasNode rNode = true) (h : l.nodeName? end? = r.nodeName? (some rNode)) :
    ∃ lNode, end? = some lNode := by
  obtain ⟨name, hname⟩ := Graph.exists_nodeName hr
  cases end? with
  | none => exact nomatch h.trans hname
  | some lNode => exact ⟨lNode, rfl⟩

end GrammarRule

/-! ## What becomes of ends and members

The outcome for one end is stated with what the arc has in L and in R and where the comatch has
the node of R. Whether the image lies along the arc or against it is a parameter, since the end
of the image that is meant depends on it. -/

/-- **How an end of a context arc is left**, if it is at some node of L and at some node of R.
The comatch tells where the nodes of R are. The three fields are the cases: attached in R and not
left out, attached in L only, and left out. -/
structure GrammarRule.EndBrought (rule : GrammarRule) (comatch : Assignment)
    (before after given : Option NodeKey) : Prop where
  attached : ∀ rNode, after = some rNode →
    (∀ lNode, before = some lNode → ¬ rule.LeavesOut lNode rNode) →
    ∃ place, comatch.node? rNode = some place ∧ given = some place
  detached : ∀ lNode, before = some lNode → after = none → given = none
  left_out : ∀ lNode rNode, before = some lNode → after = some rNode →
    rule.LeavesOut lNode rNode → given = none

/-- **How the members of a context hyperarc are left.** Members that the host has beside those of
L are not spoken of; they stay. -/
structure GrammarRule.MembersBrought (rule : GrammarRule) (o : RuleOption) (comatch : Assignment)
    (before after given : HyperArc) : Prop where
  joined : ∀ rNode ∈ after.members, (∀ lNode ∈ before.members, ¬ rule.LeavesOut lNode rNode) →
    ∃ place, comatch.node? rNode = some place ∧ place ∈ given.members
  parted : ∀ lNode ∈ before.members,
    (∀ rNode ∈ after.members, rule.r.nodeName? (some rNode) ≠ rule.l.nodeName? (some lNode)) →
    ∀ image, o.node? lNode = some image → image ∉ given.members
  left_out : ∀ lNode ∈ before.members, ∀ rNode ∈ after.members, rule.LeavesOut lNode rNode →
    ∀ place, comatch.node? rNode = some place → place ∉ given.members

/-! ## The applier's account

After the context has been brought to R, only free ends are touched, and a free end belongs to no
image. So what the update wrote is what is there at the end. -/

namespace Applied

variable (h : Applied host rule o d done free) (hrule : rule.Coherent)
  (hdistinct : o.toAssignment.Distinct) (hmatch : rule.Matches host o.toAssignment)

include h hrule hdistinct hmatch

/-- The image of a context arc is brought to R, and stays so. The reattachment leaves it alone,
as it has no free end. -/
theorem exists_broughtArc {key rKey : ArcKey} {before after : Arc}
    (hbefore : rule.l.arc? key = some before) (hright : rule.contextArcs.right? key = some rKey)
    (hafter : rule.r.arc? rKey = some after) :
    ∃ image given, o.arc? key = some image ∧ host.arc? image = some given ∧
      rule.ArcSuits o.toAssignment key before given ∧
      done.host.arc? image = some (Update.broughtArc rule (rule.placeAt host o.toAssignment)
        before after ((Update.reversedArcs host rule o).contains key)
        (given.without (rule.goneNodes o.toAssignment))) := by
  obtain ⟨image, _, himage, -⟩ := (RuleOption.fits_of_occurs hmatch.occurs).arc key before hbefore
    (hrule.positive_arcs key rKey hright)
  obtain ⟨before', given, hbefore', hgiven, hsuits⟩ :=
    hmatch.occurs.suits _ _ (Assignment.image?_arc.2 himage)
  cases hbefore.symm.trans hbefore'
  refine ⟨image, given, himage, hgiven, hsuits,
    h.arc?_of_image (Assignment.mem_arcImages.2 ⟨key, himage⟩) ?_⟩
  exact h.replaced.arcs.get?_of_fate hgiven
    (rule.arcFate_image hdistinct hbefore hright hafter himage given)

/-- The image of a context hyperarc is brought to R, and stays so. The reattachment changes no
hyperarc. -/
theorem exists_broughtHyperArc {key rKey : HyperArcKey} {before after : HyperArc}
    (hbefore : rule.l.hyperarc? key = some before)
    (hright : rule.contextHyperArcs.right? key = some rKey)
    (hafter : rule.r.hyperarc? rKey = some after) :
    ∃ image given, o.hyperarc? key = some image ∧ host.hyperarc? image = some given ∧
      rule.HyperArcSuits o.toAssignment key before given ∧
      done.host.hyperarc? image = some (Update.broughtHyperArc rule o
        (rule.placeAt host o.toAssignment) before after
        (given.without (rule.goneNodes o.toAssignment))) := by
  obtain ⟨image, _, himage, -⟩ := (RuleOption.fits_of_occurs hmatch.occurs).hyperarc key before
    hbefore (hrule.positive_hyperarcs key rKey hright)
  obtain ⟨before', given, hbefore', hgiven, hsuits⟩ :=
    hmatch.occurs.suits _ _ (Assignment.image?_hyperarc.2 himage)
  cases hbefore.symm.trans hbefore'
  refine ⟨image, given, himage, hgiven, hsuits,
    (congrArg (Registry.get? · image) h.reattaches.hyperarcs).trans ?_⟩
  exact h.replaced.hyperarcs.get?_of_fate hgiven
    (rule.hyperarcFate_image hdistinct hbefore hright hafter himage given)

/-- **The image of a context arc is connected as R has it**, except where the context leaves out
a node of both sides. Whether the image lies back to front was settled when it was matched. The
rest is a case analysis on one end: R has a node there and L names it alike, or R has one that L
does not name there, or R has none. -/
theorem arc_reconnected {key rKey : ArcKey} {before after : Arc}
    (hbefore : rule.l.arc? key = some before) (hright : rule.contextArcs.right? key = some rKey)
    (hafter : rule.r.arc? rKey = some after) :
    ∃ image given, o.arc? key = some image ∧ done.host.arc? image = some given ∧
      ∃ exchanged : Bool, (exchanged = true → after.isOriented = false) ∧
        ∀ e, rule.EndBrought (rule.comatch o.toAssignment done.report) (before.atEnd e)
          (after.atEnd e) (given.atEnd (if exchanged then e.opposite else e)) := by
  obtain ⟨image, given, himage, hgiven, hsuits, hbrought⟩ :=
    h.exists_broughtArc hrule hdistinct hmatch hbefore hright hafter
  have hfits := RuleOption.fits_of_occurs hmatch.occurs
  refine ⟨image, _, himage, hbrought,
    (Update.reversedArcs host rule o).contains key && !after.isOriented, fun hturn => ?_,
    fun e => ?_⟩
  · rw [Bool.and_eq_true, Bool.not_eq_true'] at hturn
    exact hturn.2
  have hends := Update.atEnd_image_of_suits hbefore himage hgiven hsuits e
  have halive : ∀ rNode, after.atEnd e = some rNode → rule.r.hasNode rNode = true :=
    fun rNode hend =>
      hrule.r_wellFormed.ends_alive rKey after hafter rNode (Arc.mem_ends_iff_atEnd.2 ⟨e, hend⟩)
  rw [Update.atEnd_broughtArc]
  constructor
  · intro rNode hend hkept
    rw [h.comatch_node? hrule (halive rNode hend), hend]
    split
    · -- L and R name the end alike, so it stays at the image of its node
      rename_i hname
      obtain ⟨lNode, hlEnd⟩ := GrammarRule.exists_eq_some_of_nodeName? (halive rNode hend) hname
      rw [hlEnd] at hname
      have hpair := (rule.right?_or_leavesOut_of_nodeName hrule (halive rNode hend)
        hname).resolve_right (hkept lNode hlEnd)
      obtain ⟨place, hplace, hat⟩ := hends lNode hlEnd
      obtain ⟨hplaceAt, hstays⟩ := rule.placeAt_of_right? hrule hdistinct hpair hplace
      refine ⟨place, hplaceAt, ?_⟩
      rw [Arc.atEnd_without, hat]
      simp [Option.filter, hstays]
    · obtain ⟨place, hplace⟩ := h.exists_placeAt hrule hfits (halive rNode hend)
      exact ⟨place, hplace, hplace⟩
  · intro lNode hlEnd hend
    have hlAlive : rule.l.hasNode lNode = true := hrule.l_wellFormed.ends_alive key before hbefore
      lNode (Arc.mem_ends_iff_atEnd.2 ⟨e, hlEnd⟩)
    obtain ⟨name, hname⟩ := Graph.exists_nodeName hlAlive
    rw [hlEnd, hend, hname, if_neg nofun]
    rfl
  · intro lNode rNode hlEnd hend hleft
    obtain ⟨place, hplace, hat⟩ := hends lNode hlEnd
    rw [hlEnd, hend, if_pos (hleft.nodeName?_eq hrule), Arc.atEnd_without, hat]
    simp [Option.filter, hleft.mem_goneNodes hrule hplace]

/-- **The image of a context hyperarc has the members that R has**, except those that the context
leaves out. Members come and go by name. A member of R that L names too is a member already, and
stays if its node is one the context keeps; a member of L that R does not name goes. -/
theorem hyperarc_reconnected (hhost : host.WellFormed) {key rKey : HyperArcKey}
    {before after : HyperArc} (hbefore : rule.l.hyperarc? key = some before)
    (hright : rule.contextHyperArcs.right? key = some rKey)
    (hafter : rule.r.hyperarc? rKey = some after) :
    ∃ image given, o.hyperarc? key = some image ∧ done.host.hyperarc? image = some given ∧
      rule.MembersBrought o (rule.comatch o.toAssignment done.report) before after given := by
  obtain ⟨image, given, himage, hgiven, hsuits, hbrought⟩ :=
    h.exists_broughtHyperArc hrule hdistinct hmatch hbefore hright hafter
  have hfits := RuleOption.fits_of_occurs hmatch.occurs
  have halive := hrule.r_wellFormed.members_alive rKey after hafter
  have hold := hhost.members_alive image given hgiven
  refine ⟨image, _, himage, hbrought, ?_, ?_, ?_⟩
  · intro rNode hrNode hkept
    rw [h.comatch_node? hrule (halive rNode hrNode)]
    simp only [Update.mem_broughtHyperArc]
    by_cases hcoming : rNode ∈ Update.comingMembers rule before after
    · obtain ⟨place, hplace⟩ := h.exists_placeAt hrule hfits (halive rNode hrNode)
      exact ⟨place, hplace, .inr (List.mem_filterMap.2 ⟨rNode, hcoming, hplace⟩)⟩
    · -- L names the member too, so its image is a member that does not leave
      obtain ⟨lNode, hlNode, hname⟩ : ∃ lNode ∈ before.members,
          rule.l.nodeName? (some lNode) = rule.r.nodeName? (some rNode) :=
        not_not.1 fun hnone => hcoming (Update.mem_comingMembers.2 ⟨hrNode, hnone⟩)
      have hpair := (rule.right?_or_leavesOut_of_nodeName hrule (halive rNode hrNode)
        hname).resolve_right (hkept lNode hlNode)
      obtain ⟨place, hplace, hmember⟩ := hsuits.members lNode hlNode
      obtain ⟨hplaceAt, hstays⟩ := rule.placeAt_of_right? hrule hdistinct hpair hplace
      refine ⟨place, hplaceAt, .inl ⟨HyperArc.mem_without.2 ⟨hmember, hstays⟩, fun hleaves => ?_⟩⟩
      obtain ⟨other, hother, hotherPlace⟩ := List.mem_filterMap.1 hleaves
      cases hdistinct.node_inj hplace hotherPlace
      exact (Update.mem_leavingMembers.1 hother).2 ⟨rNode, hrNode, hname.symm⟩
  · intro lNode hlNode hapart place hplace
    rw [Update.mem_broughtHyperArc, not_or, not_and_not_right]
    refine ⟨fun _ => List.mem_filterMap.2 ⟨lNode, Update.mem_leavingMembers.2
      ⟨hlNode, fun ⟨rNode, hrNode, hname⟩ => hapart rNode hrNode hname⟩, hplace⟩, fun hcomes => ?_⟩
    -- what comes is a node of the host only if it is the image of a node of its name
    obtain ⟨rNode, hcoming, hplaceAt⟩ := List.mem_filterMap.1 hcomes
    have hrNode := (Update.mem_comingMembers.1 hcoming).1
    obtain ⟨other, hpair, hother⟩ :=
      rule.exists_right?_of_placeAt hrule (hfits.of_node? hrule hplace).2.2 hplaceAt
    cases hdistinct.node_inj hplace hother
    exact hapart rNode hrNode (rule.nodeName?_eq_of_right? hrule hpair).symm
  · intro lNode hlNode rNode hrNode hleft place hplace
    rw [h.comatch_node? hrule (halive rNode hrNode)] at hplace
    have hname := hleft.nodeName?_eq hrule
    rw [Update.mem_broughtHyperArc, not_or]
    constructor
    · rintro ⟨hmember, -⟩
      obtain ⟨other, hpair, -⟩ := rule.exists_right?_of_placeAt hrule
        (hold place (HyperArc.mem_without.1 hmember).1) hplace
      exact hleft.right?_ne_some hrule other hpair
    · intro hcomes
      obtain ⟨other, hcoming, hother⟩ := List.mem_filterMap.1 hcomes
      cases rule.placeAt_injective hrule hdistinct hfits hplace hother
      exact (Update.mem_comingMembers.1 hcoming).2 ⟨lNode, hlNode, hname⟩

end Applied

/-- **The context is connected as R has it, except where a given context leaves out
a node of both sides.** For a rule that was built, every option that is recognized
can be applied. Afterwards the images of context arcs have their ends at the nodes
of R and let go of the others, maybe the other way round if R does not orient the
arc, and the images of context hyperarcs have the members of R and lack those that
only L has. A node that L and R both name and the context leaves out is where this
ends: an arc that was at it dangles there, and no hyperarc gets the new node. -/
theorem context_reconnected {limits : Limits} (hhost : host.WellFormed) (hrule : rule.Built)
    (ho : o ∈ (recognize host rule limits).options) :
    ∃ report, (apply host rule o).result = .ok report ∧
      (∀ key rKey before after, rule.l.arc? key = some before →
        rule.contextArcs.right? key = some rKey → rule.r.arc? rKey = some after →
        ∃ image given, o.arc? key = some image ∧ (apply host rule o).host.arc? image = some given ∧
          ∃ exchanged : Bool, (exchanged = true → after.isOriented = false) ∧
            ∀ e, rule.EndBrought (rule.comatch o.toAssignment report) (before.atEnd e)
              (after.atEnd e) (given.atEnd (if exchanged then e.opposite else e))) ∧
      ∀ key rKey before after, rule.l.hyperarc? key = some before →
        rule.contextHyperArcs.right? key = some rKey → rule.r.hyperarc? rKey = some after →
        ∃ image given, o.hyperarc? key = some image ∧
          (apply host rule o).host.hyperarc? image = some given ∧
          rule.MembersBrought o (rule.comatch o.toAssignment report) before after given := by
  have hcoherent := hrule.coherent
  obtain ⟨hmatch, -⟩ := matches_of_mem_options hhost hcoherent ho
  have hdistinct := hmatch.occurs.distinct
  obtain ⟨d, done, free, happly, h⟩ := apply_of_fits hhost hcoherent hdistinct
    (RuleOption.fits_of_occurs hmatch.occurs)
  rw [happly]
  exact ⟨done.report, rfl,
    fun _ _ _ _ hbefore hright hafter =>
      h.arc_reconnected hcoherent hdistinct hmatch hbefore hright hafter,
    fun _ _ _ _ hbefore hright hafter =>
      h.hyperarc_reconnected hcoherent hdistinct hmatch hhost hbefore hright hafter⟩

/-- Two nodes that an arc and a hyperarc connect. -/
def Graph.twiceConnected (far : Name) : Graph where
  nodes := .ofElements [{ name := "a" }, { name := far }]
  arcs := .ofElements [{ name := "e", source := some ⟨0⟩, target := some ⟨1⟩, directed := true }]
  hyperarcs := .ofElements [{ name := "h", members := [⟨0⟩, ⟨1⟩] }]

/-- The rule that puts a new node in the place of the second of two connected nodes.
The context has the connections, but not that node. -/
def GrammarRule.replaceFar (far : Name) : GrammarRule where
  name := "replace far"
  l := .twiceConnected "b"
  k :=
    { nodes := .ofElements [{ name := "a" }]
      arcs := .ofElements [{ name := "e", source := some ⟨0⟩, directed := true }]
      hyperarcs := .ofElements [{ name := "h", members := [⟨0⟩] }] }
  r := .twiceConnected far
  nodeConditions := [{}, {}]
  arcConditions := [{}]
  hyperarcConditions := [{}]
  contextNodes := Correspondence.empty.insert ⟨0⟩ ⟨0⟩
  contextArcs := Correspondence.empty.insert ⟨0⟩ ⟨0⟩
  contextHyperArcs := Correspondence.empty.insert ⟨0⟩ ⟨0⟩

/-- The rule passes every check of a draft, whether the new node has the name of the old one or
another. -/
theorem GrammarRule.replaceFar_built {far : Name} (hfar : far = "b" ∨ far = "c") :
    (GrammarRule.replaceFar far).Built := by
  refine ⟨{ name := "replace far"
            l := .twiceConnected "b"
            r := .twiceConnected far
            k := some (replaceFar far).k },
    ⟨Graph.membersDistinct_ofElements rfl (by decide), Graph.membersDistinct_ofElements rfl
      (by decide), ?_⟩, ?_⟩
  · rintro _ ⟨⟩
    exact Graph.membersDistinct_ofElements rfl (by decide)
  · rcases hfar with rfl | rfl <;> rfl

/-- The ends and the members are there. -/
theorem Graph.twiceConnected_wellFormed : (Graph.twiceConnected "b").WellFormed :=
  Graph.wellFormed_of_copy_eq rfl (Graph.membersDistinct_ofElements rfl (by decide))

/-- There is one way to find the two connected nodes. -/
theorem GrammarRule.length_options_replaceFar {far : Name} (hfar : far = "b" ∨ far = "c") :
    (recognize (.twiceConnected "b") (.replaceFar far) {}).options.length = 1 := by
  rcases hfar with rfl | rfl <;> decide +kernel

/-- The arc ends at the new node, and the hyperarc has it, if its name is new too. -/
theorem context_reconnected_replaceFar :
    ∃ o report, o ∈ (recognize (.twiceConnected "b") (.replaceFar "c") {}).options ∧
      let application := apply (.twiceConnected "b") (.replaceFar "c") o
      let comatch := (GrammarRule.replaceFar "c").comatch o.toAssignment report
      application.result = .ok report ∧
      (∃ given place, application.host.arc? ⟨0⟩ = some given ∧
        comatch.node? ⟨1⟩ = some place ∧ given.target = some place) ∧
      ∃ given place, application.host.hyperarc? ⟨0⟩ = some given ∧
        comatch.node? ⟨1⟩ = some place ∧ place ∈ given.members := by
  have hmem := List.getElem_mem (GrammarRule.length_options_replaceFar (.inr rfl) ▸ Nat.one_pos)
  obtain ⟨report, hresult, harcs, hhyperarcs⟩ := context_reconnected
    Graph.twiceConnected_wellFormed (GrammarRule.replaceFar_built (.inr rfl)) hmem
  obtain ⟨image, given, himage, hgiven, exchanged, horiented, hends⟩ :=
    harcs ⟨0⟩ ⟨0⟩ _ _ rfl rfl rfl
  obtain ⟨image', given', himage', hgiven', hmembers⟩ := hhyperarcs ⟨0⟩ ⟨0⟩ _ _ rfl rfl rfl
  -- the option has the only images there are
  cases himage.symm.trans (by decide +kernel : _ = some (⟨0⟩ : ArcKey))
  cases himage'.symm.trans (by decide +kernel : _ = some (⟨0⟩ : HyperArcKey))
  have hkept (lNode : NodeKey) : ¬ (GrammarRule.replaceFar "c").LeavesOut lNode ⟨1⟩ := by
    intro hleft
    have hname := hleft.nodeName?_eq (GrammarRule.replaceFar_built (.inr rfl)).coherent
    rcases lNode with ⟨_ | _ | i⟩
    · exact absurd hname (by decide)
    · exact absurd hname (by decide)
    · exact nomatch hname
  refine ⟨_, report, hmem, hresult, ⟨given, ?_⟩, ⟨given', ?_⟩⟩
  · cases exchanged with
    | true => exact nomatch horiented rfl
    | false =>
      obtain ⟨place, hplace, hat⟩ := (hends .target).attached ⟨1⟩ rfl fun lNode _ => hkept lNode
      exact ⟨place, hgiven, hplace, hat⟩
  · obtain ⟨place, hplace, hmember⟩ :=
      hmembers.joined ⟨1⟩ (by decide) fun lNode _ => hkept lNode
    exact ⟨place, hgiven', hplace, hmember⟩

/-- **A node that is left out is not connected.** The context leaves out the second
node, which L and R both name. The new node is added, but the arc that R attaches to it
dangles, and the hyperarc does not have it. -/
theorem context_unconnected_replaceFar :
    ∃ o report, o ∈ (recognize (.twiceConnected "b") (.replaceFar "b") {}).options ∧
      (GrammarRule.replaceFar "b").Built ∧ (Graph.twiceConnected "b").WellFormed ∧
      let application := apply (.twiceConnected "b") (.replaceFar "b") o
      let comatch := (GrammarRule.replaceFar "b").comatch o.toAssignment report
      application.result = .ok report ∧ report.diagnostics = [] ∧
      o.arc? ⟨0⟩ = some ⟨0⟩ ∧ o.hyperarc? ⟨0⟩ = some ⟨0⟩ ∧ comatch.node? ⟨1⟩ = some ⟨2⟩ ∧
      application.host.nodes.keys = [⟨0⟩, ⟨2⟩] ∧
      application.host.arcs.elements.map (·.ends) = [[⟨0⟩]] ∧
      application.host.hyperarcs.elements.map (·.members) = [[⟨0⟩]] := by
  have hmem := List.getElem_mem (GrammarRule.length_options_replaceFar (.inl rfl) ▸ Nat.one_pos)
  refine ⟨_, { removedNodes := [⟨1⟩], addedNodes := [⟨2⟩] }, hmem,
    GrammarRule.replaceFar_built (.inl rfl), Graph.twiceConnected_wellFormed, ?_⟩
  decide +kernel

end GraphGrammar
