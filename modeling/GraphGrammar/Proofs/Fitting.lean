import GraphGrammar.Application.Check
import GraphGrammar.Proofs.Match

/-!
# Options that fit a host

The check before an application asks less of an option than a match does: the
elements that are there must still be there and be connected as before.
`RuleOption.Fits` is what it asks, stated element by element, and
`RuleOption.check_eq_ok_iff` says that it asks for this exactly. A match fits.

An application relies on the condition and never on the test: `RuleOption.Fits` is unfolded by
its fields, and the last part of this module says what it gives for an image that some later
phase comes upon.
-/

namespace GraphGrammar

open Attributed

/-- An arc of L joins the images of its nodes in a host arc: it lies along it, or
against it if it has no orientation or the host arc points both ways. -/
def ArcCondition.Joins (condition : ArcCondition) (a : Assignment) (arc given : Arc) : Prop :=
  condition.LiesAlong a arc given.source given.target ∨
    ((arc.isOriented = false ∨ given.doublyDirected = true) ∧
      condition.LiesAlong a arc given.target given.source)

namespace RuleOption

/-- **What the check before an application asks of an option.** Each positive element has a live
image that is connected as the element is, and no negative element has one. Attributes are not
compared. -/
structure Fits (o : RuleOption) (host : Graph) (rule : GrammarRule) : Prop where
  shaped : o.toAssignment.Shaped rule.l
  node : ∀ key, rule.l.hasNode key = true → rule.isNegativeNode key = false →
    ∃ image, o.node? key = some image ∧ host.hasNode image = true
  node_negative : ∀ key, rule.l.hasNode key = true → rule.isNegativeNode key = true →
    o.node? key = none
  arc : ∀ key arc, rule.l.arc? key = some arc → rule.isNegativeArc key = false →
    ∃ image given, o.arc? key = some image ∧ host.arc? image = some given ∧
      o.arcAgrees arc given = true
  arc_negative : ∀ key arc, rule.l.arc? key = some arc → rule.isNegativeArc key = true →
    o.arc? key = none
  hyperarc : ∀ key hyperarc, rule.l.hyperarc? key = some hyperarc →
    rule.isNegativeHyperArc key = false →
    ∃ image given, o.hyperarc? key = some image ∧ host.hyperarc? image = some given ∧
      ∀ member ∈ hyperarc.members, ∃ node, o.node? member = some node ∧ node ∈ given.members
  hyperarc_negative : ∀ key hyperarc, rule.l.hyperarc? key = some hyperarc →
    rule.isNegativeHyperArc key = true → o.hyperarc? key = none

variable {o : RuleOption} {host : Graph} {rule : GrammarRule}

/-! ## The check

The check goes through the elements of L, kind by kind, and refuses at the first that does not
pass. For each kind there is a lemma about one element, and the loop over all of them adds
nothing to it. -/

/-- A requirement passes if it holds. -/
theorem require_eq_ok_iff {what : String} {holds : Bool} :
    require what holds = .ok () ↔ holds = true := by
  cases holds with
  | false => exact ⟨nofun, nofun⟩
  | true => exact ⟨fun _ => rfl, fun _ => rfl⟩

/-- What the check asks of one node: a positive one needs a live image, and a negative one may
not have any. -/
theorem checkNode_eq_ok_iff {key : NodeKey} {node : Node} :
    o.checkNode host rule (key, node) = .ok () ↔
      (rule.isNegativeNode key = false →
        ∃ image, o.node? key = some image ∧ host.hasNode image = true) ∧
      (rule.isNegativeNode key = true → o.node? key = none) := by
  unfold checkNode
  dsimp only
  rw [require_eq_ok_iff]
  cases rule.isNegativeNode key with
  | false => simp [Option.any_eq_true]
  | true => simp

/-- What the check asks of one arc: a positive one needs a live image with ends in the right
places. -/
theorem checkArc_eq_ok_iff {key : ArcKey} {arc : Arc} :
    o.checkArc host rule (key, arc) = .ok () ↔
      (rule.isNegativeArc key = false →
        ∃ image given, o.arc? key = some image ∧ host.arc? image = some given ∧
          o.arcAgrees arc given = true) ∧
      (rule.isNegativeArc key = true → o.arc? key = none) := by
  unfold checkArc
  dsimp only
  cases rule.isNegativeArc key with
  | true =>
    rw [if_pos rfl, require_eq_ok_iff]
    simp
  | false =>
    rw [if_neg Bool.false_ne_true]
    cases o.arc? key with
    | none => simp [require_eq_ok_iff]
    | some image =>
      cases hgiven : host.arc? image with
      | none => simp [require_eq_ok_iff, hgiven]
      | some given => simp [require_eq_ok_iff, hgiven]

/-- What the check asks of one hyperarc: a positive one needs a live image that contains the
images of its members. It may contain others too. -/
theorem checkHyperArc_eq_ok_iff {key : HyperArcKey} {hyperarc : HyperArc} :
    o.checkHyperArc host rule (key, hyperarc) = .ok () ↔
      (rule.isNegativeHyperArc key = false →
        ∃ image given, o.hyperarc? key = some image ∧ host.hyperarc? image = some given ∧
          ∀ member ∈ hyperarc.members, ∃ node, o.node? member = some node ∧
            node ∈ given.members) ∧
      (rule.isNegativeHyperArc key = true → o.hyperarc? key = none) := by
  unfold checkHyperArc
  dsimp only
  cases rule.isNegativeHyperArc key with
  | true =>
    rw [if_pos rfl, require_eq_ok_iff]
    simp
  | false =>
    rw [if_neg Bool.false_ne_true]
    cases o.hyperarc? key with
    | none => simp [require_eq_ok_iff]
    | some image =>
      cases hgiven : host.hyperarc? image with
      | none => simp [require_eq_ok_iff, hgiven]
      | some given =>
        simp [require_eq_ok_iff, hgiven, Option.any_eq_true, HyperArc.contains_iff]

/-- The comparison of lengths asks for the shape of an assignment, since L of a rule that was
built has no freed slots and as many slots as elements. -/
theorem hasShapeOf_iff (hrule : rule.Coherent) :
    o.hasShapeOf rule.l = true ↔ o.toAssignment.Shaped rule.l := by
  unfold hasShapeOf
  rw [Bool.and_eq_true, Bool.and_eq_true, beq_iff_eq, beq_iff_eq, beq_iff_eq,
    hrule.l_compact.nodes.count_eq hrule.l_wellFormed.nodes_indexed,
    hrule.l_compact.arcs.count_eq hrule.l_wellFormed.arcs_indexed,
    hrule.l_compact.hyperarcs.count_eq hrule.l_wellFormed.hyperarcs_indexed]
  exact ⟨fun ⟨⟨hnodes, harcs⟩, hhyperarcs⟩ => ⟨hnodes, harcs, hhyperarcs⟩,
    fun h => ⟨⟨h.nodes, h.arcs⟩, h.hyperarcs⟩⟩

/-- **The check passes exactly the options that fit.** A loop passes if every element in it does,
so the lemmas about one element are put together here and nothing is added to them. -/
theorem check_eq_ok_iff (hrule : rule.Coherent) :
    o.check host rule = .ok () ↔ o.Fits host rule := by
  unfold check
  by_cases hshape : o.hasShapeOf rule.l = true
  · have hshaped := (hasShapeOf_iff hrule).1 hshape
    rw [hshape, Bool.not_true, if_neg Bool.false_ne_true]
    simp only [bind_eq_ok_iff]
    constructor
    · rintro ⟨⟨⟩, hnodes, ⟨⟩, harcs, hhyperarcs⟩
      -- each loop has passed, so each element has
      have hnode := fun key node (h : rule.l.node? key = some node) => checkNode_eq_ok_iff.1
        (forM_eq_ok_iff.1 hnodes (key, node) (Registry.mem_entries_iff.2 h))
      have harc := fun key arc (h : rule.l.arc? key = some arc) => checkArc_eq_ok_iff.1
        (forM_eq_ok_iff.1 harcs (key, arc) (Registry.mem_entries_iff.2 h))
      have hhyperarc := fun key hyperarc (h : rule.l.hyperarc? key = some hyperarc) =>
        checkHyperArc_eq_ok_iff.1
          (forM_eq_ok_iff.1 hhyperarcs (key, hyperarc) (Registry.mem_entries_iff.2 h))
      constructor
      · exact hshaped
      · intro key hkey
        obtain ⟨node, h⟩ := Graph.hasNode_iff.1 hkey
        exact (hnode key node h).1
      · intro key hkey
        obtain ⟨node, h⟩ := Graph.hasNode_iff.1 hkey
        exact (hnode key node h).2
      · exact fun key arc h => (harc key arc h).1
      · exact fun key arc h => (harc key arc h).2
      · exact fun key hyperarc h => (hhyperarc key hyperarc h).1
      · exact fun key hyperarc h => (hhyperarc key hyperarc h).2
    · intro h
      refine ⟨(), forM_eq_ok_iff.2 ?_, (), forM_eq_ok_iff.2 ?_, forM_eq_ok_iff.2 ?_⟩
      · rintro ⟨key, node⟩ hentry
        have hkey := Graph.hasNode_iff.2 ⟨node, Registry.mem_entries_iff.1 hentry⟩
        exact checkNode_eq_ok_iff.2 ⟨h.node key hkey, h.node_negative key hkey⟩
      · rintro ⟨key, arc⟩ hentry
        have hkey := Registry.mem_entries_iff.1 hentry
        exact checkArc_eq_ok_iff.2 ⟨h.arc key arc hkey, h.arc_negative key arc hkey⟩
      · rintro ⟨key, hyperarc⟩ hentry
        have hkey := Registry.mem_entries_iff.1 hentry
        exact checkHyperArc_eq_ok_iff.2
          ⟨h.hyperarc key hyperarc hkey, h.hyperarc_negative key hyperarc hkey⟩
  · rw [Bool.eq_false_iff.2 hshape, Bool.not_false, if_pos rfl]
    exact iff_of_false nofun fun h => hshape ((hasShapeOf_iff hrule).2 h.shaped)

/-- What a part of the check refuses, it refuses as stale. -/
theorem cause_of_require {what : String} {holds : Bool} {failure : Report ApplyError}
    (h : require what holds = .error failure) : failure.cause = .staleOption := by
  cases holds with
  | false =>
    cases h
    rfl
  | true => exact nomatch h

/-- A loop refuses for a cause for which some step refuses. -/
theorem cause_of_forM {α : Type} {f : α → Outcome ApplyError Unit} {failure : Report ApplyError}
    (hf : ∀ a failure, f a = .error failure → failure.cause = .staleOption) :
    ∀ {xs : List α}, xs.forM f = .error failure → failure.cause = .staleOption
  | x :: rest, h => by
    have h : (f x >>= fun _ => rest.forM f) = .error failure := h
    cases hx : f x with
    | error other =>
      rw [hx] at h
      exact hf x failure (hx.trans h)
    | ok _ =>
      rw [hx] at h
      exact cause_of_forM hf h

/-- An option that has the shape is refused as stale, if at all. Every other test of the check
refuses with this cause, whatever it is that it found. -/
theorem cause_of_check_of_shape {failure : Report ApplyError}
    (hshape : o.hasShapeOf rule.l = true) (h : o.check host rule = .error failure) :
    failure.cause = .staleOption := by
  have hnode : ∀ entry failure, o.checkNode host rule entry = .error failure →
      failure.cause = .staleOption := fun _ _ => cause_of_require
  have harc : ∀ entry failure, o.checkArc host rule entry = .error failure →
      failure.cause = .staleOption := by
    intro entry failure h
    unfold checkArc at h
    dsimp only at h
    split at h
    · exact cause_of_require h
    · split at h <;> exact cause_of_require h
  have hhyperarc : ∀ entry failure, o.checkHyperArc host rule entry = .error failure →
      failure.cause = .staleOption := by
    intro entry failure h
    unfold checkHyperArc at h
    dsimp only at h
    split at h
    · exact cause_of_require h
    · split at h <;> exact cause_of_require h
  unfold check at h
  rw [hshape, Bool.not_true, if_neg Bool.false_ne_true] at h
  -- nodes, arcs and hyperarcs are gone through in turn, and the first part that refuses gives
  -- the cause
  cases hnodes : rule.l.nodes.entries.forM (o.checkNode host rule) with
  | error other =>
    rw [hnodes] at h
    cases h
    exact cause_of_forM hnode hnodes
  | ok _ =>
    rw [hnodes] at h
    cases harcs : rule.l.arcs.entries.forM (o.checkArc host rule) with
    | error other =>
      rw [harcs] at h
      cases h
      exact cause_of_forM harc harcs
    | ok _ =>
      rw [harcs] at h
      exact cause_of_forM hhyperarc h

/-- **The check refuses an option for its shape or as stale**, and for no other
cause. -/
theorem cause_of_check {failure : Report ApplyError} (h : o.check host rule = .error failure) :
    failure.cause = .optionShape rule.name ∨ failure.cause = .staleOption := by
  by_cases hshape : o.hasShapeOf rule.l = true
  · exact .inr (cause_of_check_of_shape hshape h)
  · unfold check at h
    rw [Bool.eq_false_iff.2 hshape] at h
    cases h
    exact .inl rfl

/-! ## Matches fit

What a match asks of an arc and what the check asks differ in one respect. A condition on an arc
may ask for a dangling end, and the check does not; so a match passes the check, and the converse
holds for arcs without such a condition. -/

/-- The ends of an arc of L are where its image has them. -/
theorem endsAgree_of_liesAlong {condition : ArcCondition} {arc : Arc}
    {source target : Option NodeKey} (h : condition.LiesAlong o.toAssignment arc source target) :
    o.endsAgree arc source target = true := by
  have hend : ∀ {wanted given : Option NodeKey}, condition.EndMet o.toAssignment wanted given →
      ((wanted.bind o.node?).isNone || given == wanted.bind o.node?) = true := by
    intro wanted given hmet
    cases wanted with
    | none => rfl
    | some node =>
      obtain ⟨image, himage, hgiven⟩ := hmet
      show ((o.node? node).isNone || given == o.node? node) = true
      rw [himage, hgiven]
      exact beq_self_eq_true _
  exact Bool.and_eq_true_iff.2 ⟨hend h.1, hend h.2⟩

/-- **An arc that lies as L asks passes the check**, whatever else the condition on it says. -/
theorem arcAgrees_of_joins {condition : ArcCondition} {arc given : Arc}
    (h : condition.Joins o.toAssignment arc given) : o.arcAgrees arc given = true := by
  unfold arcAgrees
  rcases h with hforward | ⟨hturns, hbackward⟩
  · rw [endsAgree_of_liesAlong hforward, Bool.true_or]
  · have hturns' : (!arc.isOriented || given.doublyDirected) = true := by
      rcases hturns with h | h
      · rw [h]
        rfl
      · rw [h, Bool.or_true]
    rw [hturns', endsAgree_of_liesAlong hbackward, Bool.and_self, Bool.or_true]

/-- If all its ends have images, an arc of L lies along two host ends that agree with
it, as far as a condition on it does not speak of dangling ends. -/
theorem liesAlong_of_endsAgree {arc : Arc} {source target : Option NodeKey}
    (hends : ∀ node ∈ arc.ends, ∃ image, o.node? node = some image)
    (h : o.endsAgree arc source target = true) :
    ({} : ArcCondition).LiesAlong o.toAssignment arc source target := by
  have hend : ∀ {wanted given : Option NodeKey}, (∀ node, wanted = some node → node ∈ arc.ends) →
      ((wanted.bind o.node?).isNone || given == wanted.bind o.node?) = true →
      ({} : ArcCondition).EndMet o.toAssignment wanted given := by
    intro wanted given hwanted hagrees
    cases wanted with
    | none => exact nofun
    | some node =>
      obtain ⟨image, himage⟩ := hends node (hwanted node rfl)
      rw [Option.bind_some, himage, Option.isNone_some, Bool.false_or, beq_iff_eq] at hagrees
      exact ⟨image, himage, hagrees⟩
  obtain ⟨hsource, htarget⟩ := Bool.and_eq_true_iff.1 h
  exact ⟨hend (fun node hnode => Arc.mem_ends.2 (.inl hnode)) hsource,
    hend (fun node hnode => Arc.mem_ends.2 (.inr hnode)) htarget⟩

/-- The converse, for the condition that asks for nothing. -/
theorem joins_of_arcAgrees {arc given : Arc}
    (hends : ∀ node ∈ arc.ends, ∃ image, o.node? node = some image)
    (h : o.arcAgrees arc given = true) :
    ({} : ArcCondition).Joins o.toAssignment arc given := by
  rcases (Bool.or_eq_true_iff).1 h with hforward | hbackward
  · exact .inl (liesAlong_of_endsAgree hends hforward)
  · obtain ⟨hturns, hagrees⟩ := Bool.and_eq_true_iff.1 hbackward
    rw [Bool.or_eq_true, Bool.not_eq_true'] at hturns
    exact .inr ⟨hturns, liesAlong_of_endsAgree hends hagrees⟩

/-- **A match fits the host it was found in.** Where a match says that an element suits its
image, the check asks for some of what suiting means: that the image is there, and where its ends
and members are. -/
theorem fits_of_occurs (h : rule.OccursAt host .positive o.toAssignment) : o.Fits host rule := by
  -- a positive element has an image that suits it, and a negative one has none
  have hsome : ∀ {e}, rule.hasElement e = true → rule.isNegative e = false →
      ∃ slot, o.image? e = some slot ∧ rule.Suits host o.toAssignment e slot := by
    intro e he hpositive
    obtain ⟨slot, hslot⟩ := Option.isSome_iff_exists.1
      ((h.assigned e).2 ⟨he, by rw [hpositive]; rfl⟩)
    exact ⟨slot, hslot, h.suits e slot hslot⟩
  have hnone : ∀ {e}, rule.isNegative e = true → o.image? e = none := by
    intro e hnegative
    rw [← Option.not_isSome_iff_eq_none, h.assigned, hnegative]
    exact fun h => Bool.false_ne_true h.2
  constructor
  · exact h.shaped
  · intro key hkey hpositive
    obtain ⟨slot, hslot, node, given, -, hgiven, -⟩ := hsome (e := .node key) hkey hpositive
    exact ⟨⟨slot⟩, Assignment.map_index_eq_some.1 hslot, Graph.hasNode_iff.2 ⟨given, hgiven⟩⟩
  · exact fun key _ hnegative => Option.map_eq_none_iff.1 (hnone (e := .node key) hnegative)
  · intro key arc harc hpositive
    obtain ⟨slot, hslot, arc', given, harc', hgiven, hsuits⟩ :=
      hsome (e := .arc key) (Registry.contains_iff.2 ⟨arc, harc⟩) hpositive
    cases harc.symm.trans harc'
    exact ⟨⟨slot⟩, given, Assignment.map_index_eq_some.1 hslot, hgiven,
      arcAgrees_of_joins hsuits.lies⟩
  · exact fun key _ _ hnegative => Option.map_eq_none_iff.1 (hnone (e := .arc key) hnegative)
  · intro key hyperarc hhyperarc hpositive
    obtain ⟨slot, hslot, hyperarc', given, hhyperarc', hgiven, hsuits⟩ :=
      hsome (e := .hyperarc key) (Registry.contains_iff.2 ⟨hyperarc, hhyperarc⟩) hpositive
    cases hhyperarc.symm.trans hhyperarc'
    exact ⟨⟨slot⟩, given, Assignment.map_index_eq_some.1 hslot, hgiven, hsuits.members⟩
  · exact fun key _ _ hnegative => Option.map_eq_none_iff.1 (hnone (e := .hyperarc key) hnegative)

/-! ## Images of an option that fits

Everything that has an image is a positive element of L with a live image, and everything that K
keeps has one. These lemmas are what an application knows about its option. -/

namespace Fits

variable (hrule : rule.Coherent) (h : o.Fits host rule)

include hrule h

/-- Only positive nodes of L have images, and these are alive. -/
theorem of_node? {key image : NodeKey} (hkey : o.node? key = some image) :
    rule.l.hasNode key = true ∧ rule.isNegativeNode key = false ∧ host.hasNode image = true := by
  have hlt : key.index < rule.l.nodes.cells.length := by
    rw [← h.shaped.nodes]
    refine Nat.lt_of_not_le fun hle => ?_
    rw [Assignment.node?, List.getElem?_eq_none hle] at hkey
    exact nomatch hkey
  have hl : rule.l.hasNode key = true := hrule.l_compact.nodes.contains_iff_lt.2 hlt
  have hpositive : rule.isNegativeNode key = false := by
    rw [← Bool.not_eq_true]
    intro hnegative
    rw [h.node_negative key hl hnegative] at hkey
    exact nomatch hkey
  obtain ⟨image', himage, halive⟩ := h.node key hl hpositive
  cases hkey.symm.trans himage
  exact ⟨hl, hpositive, halive⟩

/-- What is known of an arc with an image: it is positive, the image is alive, and the ends
agree. -/
theorem of_arc? {key image : ArcKey} (hkey : o.arc? key = some image) :
    ∃ arc given, rule.l.arc? key = some arc ∧ rule.isNegativeArc key = false ∧
      host.arc? image = some given ∧ o.arcAgrees arc given = true := by
  have hlt : key.index < rule.l.arcs.cells.length := by
    rw [← h.shaped.arcs]
    refine Nat.lt_of_not_le fun hle => ?_
    rw [Assignment.arc?, List.getElem?_eq_none hle] at hkey
    exact nomatch hkey
  obtain ⟨arc, harc⟩ := hrule.l_compact.arcs.exists_get? hlt
  have hpositive : rule.isNegativeArc key = false := by
    rw [← Bool.not_eq_true]
    intro hnegative
    rw [h.arc_negative key arc harc hnegative] at hkey
    exact nomatch hkey
  obtain ⟨image', given, himage, hgiven, hagrees⟩ := h.arc key arc harc hpositive
  cases hkey.symm.trans himage
  exact ⟨arc, given, harc, hpositive, hgiven, hagrees⟩

/-- What is known of a hyperarc with an image: it is positive, the image is alive, and it
contains the images of all members. -/
theorem of_hyperarc? {key image : HyperArcKey} (hkey : o.hyperarc? key = some image) :
    ∃ hyperarc given, rule.l.hyperarc? key = some hyperarc ∧
      rule.isNegativeHyperArc key = false ∧ host.hyperarc? image = some given ∧
      ∀ member ∈ hyperarc.members, ∃ node, o.node? member = some node ∧
        node ∈ given.members := by
  have hlt : key.index < rule.l.hyperarcs.cells.length := by
    rw [← h.shaped.hyperarcs]
    refine Nat.lt_of_not_le fun hle => ?_
    rw [Assignment.hyperarc?, List.getElem?_eq_none hle] at hkey
    exact nomatch hkey
  obtain ⟨hyperarc, hhyperarc⟩ := hrule.l_compact.hyperarcs.exists_get? hlt
  have hpositive : rule.isNegativeHyperArc key = false := by
    rw [← Bool.not_eq_true]
    intro hnegative
    rw [h.hyperarc_negative key hyperarc hhyperarc hnegative] at hkey
    exact nomatch hkey
  obtain ⟨image', given, himage, hgiven, hmembers⟩ := h.hyperarc key hyperarc hhyperarc hpositive
  cases hkey.symm.trans himage
  exact ⟨hyperarc, given, hhyperarc, hpositive, hgiven, hmembers⟩

/-- The image of an arc is alive. -/
theorem contains_arc {key image : ArcKey} (hkey : o.arc? key = some image) :
    host.arcs.contains image = true := by
  obtain ⟨_, given, -, -, hgiven, -⟩ := h.of_arc? hrule hkey
  exact Registry.contains_iff.2 ⟨given, hgiven⟩

/-- The image of a hyperarc is alive. -/
theorem contains_hyperarc {key image : HyperArcKey} (hkey : o.hyperarc? key = some image) :
    host.hyperarcs.contains image = true := by
  obtain ⟨_, given, -, -, hgiven, -⟩ := h.of_hyperarc? hrule hkey
  exact Registry.contains_iff.2 ⟨given, hgiven⟩

/-! The elements of the context have images. -/

/-- A node that is kept has an image, because no negative element is in K. -/
theorem exists_node? {key rKey : NodeKey} (hright : rule.contextNodes.right? key = some rKey) :
    ∃ image, o.node? key = some image := by
  obtain ⟨before, _, hbefore, -⟩ := hrule.node_pairs.exists_elements
    hrule.l_wellFormed.nodes_indexed hrule.r_wellFormed.nodes_indexed hright
  obtain ⟨image, himage, -⟩ := h.node key (Graph.hasNode_iff.2 ⟨before, hbefore⟩)
    (hrule.positive_nodes key rKey hright)
  exact ⟨image, himage⟩

/-- An arc that is kept has an image, and it is alive. -/
theorem exists_arc? {key rKey : ArcKey} (hright : rule.contextArcs.right? key = some rKey) :
    ∃ image given, o.arc? key = some image ∧ host.arc? image = some given := by
  obtain ⟨before, _, hbefore, -⟩ := hrule.arc_pairs.exists_elements
    hrule.l_wellFormed.arcs_indexed hrule.r_wellFormed.arcs_indexed hright
  obtain ⟨image, given, himage, hgiven, -⟩ :=
    h.arc key before hbefore (hrule.positive_arcs key rKey hright)
  exact ⟨image, given, himage, hgiven⟩

/-- A hyperarc that is kept has an image, and it is alive. -/
theorem exists_hyperarc? {key rKey : HyperArcKey}
    (hright : rule.contextHyperArcs.right? key = some rKey) :
    ∃ image given, o.hyperarc? key = some image ∧ host.hyperarc? image = some given := by
  obtain ⟨before, _, hbefore, -⟩ := hrule.hyperarc_pairs.exists_elements
    hrule.l_wellFormed.hyperarcs_indexed hrule.r_wellFormed.hyperarcs_indexed hright
  obtain ⟨image, given, himage, hgiven, -⟩ :=
    h.hyperarc key before hbefore (hrule.positive_hyperarcs key rKey hright)
  exact ⟨image, given, himage, hgiven⟩

end Fits

end RuleOption

end GraphGrammar
