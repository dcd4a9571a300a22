import GraphGrammar.Proofs.Application

/-!
# Recognized options and the check

Recognition and the check before an application each have a test of their own of how
arcs and hyperarcs of L lie in the host. In the host in which an option was recognized
the check passes it, and so the option can be applied there (`recognized_applies`).

When the host has changed, the check asks again for the nodes at the ends of an arc and
for the members of a hyperarc. It does not ask for everything that recognition asked
for: not that the image of an oriented arc is directed, not that an end dangles which
has to dangle, and not for the number of members. `RuleOption.Attached` is what it does
ask for, and what it leaves out holds as far as the image is as it was
(`recognized_refused_or_attached`).

In this way the theorem about later hosts says both what the check protects from and what it lets
pass. An option that is refused as stale could not have been applied; one that is accepted need
not be a match any more.
-/

namespace GraphGrammar

variable {earlier host : Graph} {rule : GrammarRule} {o : RuleOption} {limits : Limits}

/-! ## In the host of the recognition

There the two tests agree, for each option and under whatever limits it was found. -/

/-- **Recognition and the check agree.** For a well-formed host and a rule that was
built, every option that recognition returns, under whatever limits, passes the check
in that host, and the rule is applied there. -/
theorem recognized_applies (hhost : host.WellFormed) (hrule : rule.Built)
    (ho : o ∈ (recognize host rule limits).options) :
    o.check host rule = .ok () ∧
      ∃ report, (apply host rule o).result = .ok report ∧ (apply host rule o).host.WellFormed := by
  obtain ⟨hmatch, -⟩ := matches_of_mem_options hhost hrule.coherent ho
  have hfits := RuleOption.fits_of_occurs hmatch.occurs
  obtain ⟨d, done, _, happly, happlied⟩ :=
    apply_of_fits hhost hrule.coherent hmatch.occurs.distinct hfits
  refine ⟨(RuleOption.check_eq_ok_iff hrule.coherent).2 hfits, done.report, ?_⟩
  rw [happly]
  exact ⟨rfl, happlied.reattaches.wellFormed⟩

/-- The edge is removed as well where it was met against the arc. -/
theorem recognized_applies_removeEdge :
    ∃ o ∈ (recognize (.edge true) .removeEdge { maxOptions := some 2 }).options,
      o.toAssignment = ⟨[some ⟨1⟩, some ⟨0⟩], [some ⟨0⟩], []⟩ ∧
      o.check (.edge true) .removeEdge = .ok () ∧
      ∃ report, (apply (.edge true) .removeEdge o).result = .ok report ∧
        (apply (.edge true) .removeEdge o).host.WellFormed := by
  have hlength :
      1 < (recognize (.edge true) .removeEdge { maxOptions := some 2 }).options.length := by
    decide +kernel
  have hmem := List.getElem_mem hlength
  exact ⟨_, hmem, rfl,
    recognized_applies (Graph.edge_wellFormed true) GrammarRule.removeEdge_built hmem⟩

/-! ## In a later host

Recognition looked at attributes, flags and numbers of members as well, and the check looks at
ends and members only. `RuleOption.HoldsWhereUnchanged` is what can be said nonetheless of images
that have not been edited in these respects. -/

/-- **The images of an option are there, and joined as the pattern is**, as far as a condition on
the pattern does not ask for more. It asks what the check asks, said of the images and without a
test. -/
structure RuleOption.Attached (o : RuleOption) (host : Graph) (rule : GrammarRule) : Prop where
  node : ∀ key, rule.l.hasNode key = true → rule.isNegativeNode key = false →
    ∃ image, o.node? key = some image ∧ host.hasNode image = true
  arc : ∀ key arc, rule.l.arc? key = some arc → rule.isNegativeArc key = false →
    ∃ image given, o.arc? key = some image ∧ host.arc? image = some given ∧
      ({} : ArcCondition).Joins o.toAssignment arc given
  hyperarc : ∀ key hyperarc, rule.l.hyperarc? key = some hyperarc →
    rule.isNegativeHyperArc key = false →
    ∃ image given, o.hyperarc? key = some image ∧ host.hyperarc? image = some given ∧
      ∀ member ∈ hyperarc.members, ∃ node, o.node? member = some node ∧ node ∈ given.members

/-- Of an option that was recognized before, the check asks that it is attached. -/
theorem RuleOption.fits_iff_attached (hrule : rule.Coherent)
    (hoccurs : rule.OccursAt earlier .positive o.toAssignment) :
    o.Fits host rule ↔ o.Attached host rule := by
  have hbefore := RuleOption.fits_of_occurs hoccurs
  constructor
  · intro h
    refine ⟨h.node, fun key arc harc hpositive => ?_, h.hyperarc⟩
    obtain ⟨image, given, himage, hgiven, hagrees⟩ := h.arc key arc harc hpositive
    refine ⟨image, given, himage, hgiven, joins_of_arcAgrees (fun node hnode => ?_) hagrees⟩
    obtain ⟨place, hplace, -⟩ := h.node node
      (hrule.l_wellFormed.ends_alive key arc harc node hnode)
      (hrule.positive_ends key arc harc hpositive node hnode)
    exact ⟨place, hplace⟩
  · intro h
    refine ⟨hoccurs.shaped, h.node, hbefore.node_negative, fun key arc harc hpositive => ?_,
      hbefore.arc_negative, h.hyperarc, hbefore.hyperarc_negative⟩
    obtain ⟨image, given, himage, hgiven, hjoins⟩ := h.arc key arc harc hpositive
    exact ⟨image, given, himage, hgiven, arcAgrees_of_joins hjoins⟩

namespace ArcCondition

variable {condition : ArcCondition} {a : Assignment} {arc was given : Arc}
  {source target : Option NodeKey}

/-- What a condition asks of an end beyond what every condition does: that it dangles
if the end of the pattern does. -/
theorem endMet_iff (wanted end' : Option NodeKey) :
    condition.EndMet a wanted end' ↔ ({} : ArcCondition).EndMet a wanted end' ∧
      (condition.danglingMeansDangling = true → end'.isSome = wanted.isSome) := by
  cases wanted with
  | none =>
    refine ⟨fun h => ⟨nofun, fun hdangling => ?_⟩, fun h hdangling => ?_⟩
    · rw [h hdangling]
    · exact Option.isNone_iff_eq_none.1 (Option.isSome_eq_false_iff.1 (h.2 hdangling))
  | some node =>
    refine ⟨fun h => ⟨h, fun _ => ?_⟩, fun h => h.1⟩
    obtain ⟨image, -, rfl⟩ := h
    rfl

/-- An end that is met where the pattern is attached is attached. -/
theorem isSome_of_endMet {wanted end' : Option NodeKey} (h : condition.EndMet a wanted end')
    (hwanted : wanted.isSome = true) : end'.isSome = true := by
  cases wanted with
  | none => exact nomatch hwanted
  | some node =>
    obtain ⟨image, -, rfl⟩ := h
    rfl

/-- The ends that are attached, counted. -/
theorem length_ends (source target : Option NodeKey) :
    ([source, target].filterMap id).length = source.isSome.toNat + target.isSome.toNat := by
  cases source <;> cases target <;> rfl

/-- What a condition asks of both ends beyond that: that there are no more nodes at
them than at the ends of the pattern. -/
theorem liesAlong_iff :
    condition.LiesAlong a arc source target ↔
      ({} : ArcCondition).LiesAlong a arc source target ∧
        (condition.danglingMeansDangling = true →
          ([source, target].filterMap id).length = arc.ends.length) := by
  have hcount : ∀ s t s' t' : Bool, (s = true → s' = true) → (t = true → t' = true) →
      (s'.toNat + t'.toNat = s.toNat + t.toNat ↔ s' = s ∧ t' = t) := by decide
  unfold LiesAlong
  rw [endMet_iff arc.source, endMet_iff arc.target, Arc.ends, length_ends, length_ends]
  constructor
  · rintro ⟨⟨hsource, hs⟩, htarget, ht⟩
    exact ⟨⟨hsource, htarget⟩, fun hdangling => by rw [hs hdangling, ht hdangling]⟩
  · rintro ⟨⟨hsource, htarget⟩, hlength⟩
    have hboth := fun hdangling => (hcount _ _ _ _ (isSome_of_endMet hsource)
      (isSome_of_endMet htarget)).1 (hlength hdangling)
    exact ⟨⟨hsource, fun h => (hboth h).1⟩, htarget, fun h => (hboth h).2⟩

/-- **An arc that is attached and dangles as often as before** is all that recognition
asked of its ends. -/
theorem joins_of_length_ends (hwas : condition.Joins a arc was)
    (hnow : ({} : ArcCondition).Joins a arc given) (hlength : given.ends.length = was.ends.length) :
    condition.Joins a arc given := by
  have hback : (arc.source.isSome.toNat + arc.target.isSome.toNat) = arc.ends.length :=
    (length_ends _ _).symm
  have hends : ∀ other : Arc,
      ([other.target, other.source].filterMap id).length = other.ends.length := fun other => by
    rw [Arc.ends, length_ends, length_ends, Nat.add_comm]
  have hsame : condition.danglingMeansDangling = true → was.ends.length = arc.ends.length := by
    intro hdangling
    rcases hwas with hforward | ⟨-, hbackward⟩
    · exact (liesAlong_iff.1 hforward).2 hdangling
    · exact (hends was).symm.trans ((liesAlong_iff.1 hbackward).2 hdangling)
  rcases hnow with hforward | ⟨hturns, hbackward⟩
  · exact .inl (liesAlong_iff.2 ⟨hforward, fun h => hlength.trans (hsame h)⟩)
  · exact .inr ⟨hturns,
      liesAlong_iff.2 ⟨hbackward, fun h => (hends given).trans (hlength.trans (hsame h))⟩⟩

end ArcCondition

/-- **What recognition had asked for and the check does not** holds of images that are
as they were: of an arc that is directed if it was, of one that dangles as often as it
did, and of a hyperarc with as many members. -/
structure RuleOption.HoldsWhereUnchanged (o : RuleOption) (earlier host : Graph)
    (rule : GrammarRule) : Prop where
  directed : ∀ key arc image was given, rule.l.arc? key = some arc → o.arc? key = some image →
    earlier.arc? image = some was → host.arc? image = some given →
    given.directed = was.directed → arc.isOriented = true → given.directed = true
  joins : ∀ key arc image was given, rule.l.arc? key = some arc → o.arc? key = some image →
    earlier.arc? image = some was → host.arc? image = some given →
    given.ends.length = was.ends.length →
    (rule.arcCondition key).Joins o.toAssignment arc given
  memberCount : ∀ key hyperarc image was given, rule.l.hyperarc? key = some hyperarc →
    o.hyperarc? key = some image → earlier.hyperarc? image = some was →
    host.hyperarc? image = some given → given.members.length = was.members.length →
    (rule.hyperarcCondition key).strictMemberCount = true →
    given.members.length = hyperarc.members.length

/-- What was recognized and is attached holds where nothing else has changed. Each of the three
parts takes the condition that the recognition granted on the earlier host over to an image that
is as it was then. -/
theorem RuleOption.holdsWhereUnchanged (hoccurs : rule.OccursAt earlier .positive o.toAssignment)
    (hattached : o.Attached host rule) : o.HoldsWhereUnchanged earlier host rule := by
  have hsuits : ∀ {key arc image was}, rule.l.arc? key = some arc → o.arc? key = some image →
      earlier.arc? image = some was → rule.ArcSuits o.toAssignment key arc was := by
    intro key arc image was harc himage hwas
    obtain ⟨_, _, harc', hwas', hsuits⟩ := hoccurs.suits _ _ (Assignment.image?_arc.2 himage)
    cases harc.symm.trans harc'
    cases hwas.symm.trans hwas'
    exact hsuits
  constructor
  · intro key arc image was given harc himage hwas _ hsame horiented
    exact hsame.trans ((hsuits harc himage hwas).directed horiented)
  · intro key arc image was given harc himage hwas hgiven hlength
    have hpositive : rule.isNegativeArc key = false :=
      (Bool.not_eq_true' _).mp ((hoccurs.assigned (.arc key)).1
        (Option.isSome_iff_exists.2 ⟨_, Assignment.image?_arc.2 himage⟩)).2
    obtain ⟨image', given', himage', hgiven', hjoins⟩ := hattached.arc key arc harc hpositive
    cases himage.symm.trans himage'
    cases hgiven.symm.trans hgiven'
    exact ArcCondition.joins_of_length_ends (hsuits harc himage hwas).lies hjoins hlength
  · intro key hyperarc image was given hhyperarc himage hwas _ hsame hstrict
    obtain ⟨_, _, hhyperarc', hwas', hsuits⟩ :=
      hoccurs.suits _ _ (Assignment.image?_hyperarc.2 himage)
    cases hhyperarc.symm.trans hhyperarc'
    cases hwas.symm.trans hwas'
    exact hsame.trans (hsuits.memberCount hstrict)

/-- **An option of an earlier host is applied exactly if it is attached.** For a rule
that was built and an option that was recognized in some well-formed host, in any other
one the rule is applied if the images of the option are there and joined as the pattern
is, and then what the check does not look at holds where nothing has changed. Otherwise
the option is refused as stale, and the host is as it was. -/
theorem recognized_refused_or_attached (hearlier : earlier.WellFormed) (hhost : host.WellFormed)
    (hrule : rule.Built) (ho : o ∈ (recognize earlier rule limits).options) :
    (o.Attached host rule → (∃ report, (apply host rule o).result = .ok report) ∧
        o.HoldsWhereUnchanged earlier host rule) ∧
      (¬ o.Attached host rule → ∃ failure, apply host rule o = ⟨host, .error failure⟩ ∧
        failure.cause = .staleOption) := by
  obtain ⟨hmatch, -⟩ := matches_of_mem_options hearlier hrule.coherent ho
  have hfits : o.Fits host rule ↔ o.Attached host rule :=
    RuleOption.fits_iff_attached hrule.coherent hmatch.occurs
  constructor
  · intro hattached
    obtain ⟨d, done, _, happly, -⟩ :=
      apply_of_fits hhost hrule.coherent hmatch.occurs.distinct (hfits.2 hattached)
    refine ⟨⟨done.report, ?_⟩, RuleOption.holdsWhereUnchanged hmatch.occurs hattached⟩
    rw [happly]
  · intro hnot
    rcases apply_of_shaped hhost hrule.coherent hmatch.occurs.shaped hmatch.occurs.distinct with
      hrefused | ⟨report, hreport, -⟩
    · exact hrefused
    · exact absurd (hfits.1 (fits_of_apply_eq_ok hrule.coherent hreport)) hnot

/-- The rule that finds an arrow and leaves it as it is. -/
def GrammarRule.keepArrow : GrammarRule where
  name := "keep arrow"
  l := .edge true
  k := .edge true
  r := .edge true
  nodeConditions := [{}, {}]
  arcConditions := [{}]
  hyperarcConditions := []
  contextNodes := (Correspondence.empty.insert ⟨0⟩ ⟨0⟩).insert ⟨1⟩ ⟨1⟩
  contextArcs := Correspondence.empty.insert ⟨0⟩ ⟨0⟩
  contextHyperArcs := .empty

/-- The rule passes every check of a draft. -/
theorem GrammarRule.keepArrow_built : GrammarRule.keepArrow.Built :=
  ⟨{ name := "keep arrow", l := .edge true, r := .edge true },
    ⟨Graph.membersDistinct_of_no_hyperarcs rfl, Graph.membersDistinct_of_no_hyperarcs rfl, nofun⟩,
    rfl⟩

/-- An arrow that has gone is not found again. -/
theorem recognized_refused_or_attached_keepArrow :
    ∃ o ∈ (recognize (.edge true) .keepArrow {}).options,
      ∃ failure, apply .empty .keepArrow o = ⟨.empty, .error failure⟩ ∧
        failure.cause = .staleOption := by
  have hlength : 0 < (recognize (.edge true) .keepArrow {}).options.length := by decide +kernel
  have hmem := List.getElem_mem hlength
  have hempty : Graph.empty.WellFormed :=
    Graph.wellFormed_copy (g := .empty) (Graph.membersDistinct_of_no_hyperarcs rfl)
  refine ⟨_, hmem, ?_⟩
  refine (recognized_refused_or_attached (Graph.edge_wellFormed true) hempty
    GrammarRule.keepArrow_built hmem).2 fun hattached => ?_
  obtain ⟨image, -, halive⟩ := hattached.node ⟨0⟩ rfl rfl
  exact nomatch halive

/-- **An arrow without its head is still taken for one**: the rule is applied, though
the arc of L is oriented and its image is not directed. -/
theorem headless_arrow_accepted :
    ∃ o ∈ (recognize (.edge true) .keepArrow {}).options,
      (∃ report, (apply (.edge false) .keepArrow o).result = .ok report) ∧
      ∃ arc given, GrammarRule.keepArrow.l.arc? ⟨0⟩ = some arc ∧ o.arc? ⟨0⟩ = some ⟨0⟩ ∧
        (Graph.edge false).arc? ⟨0⟩ = some given ∧
        arc.isOriented = true ∧ given.directed = false := by
  have hlength : 0 < (recognize (.edge true) .keepArrow {}).options.length := by decide +kernel
  exact ⟨_, List.getElem_mem hlength, ⟨_, rfl⟩, _, _, rfl, rfl, rfl, rfl, rfl⟩

end GraphGrammar
