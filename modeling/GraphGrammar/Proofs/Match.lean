import GraphGrammar.Proofs.Assignment
import GraphGrammar.Proofs.BuiltRule

/-!
# What a match is

A match of a rule in a host is said here without any search: as a condition on
a whole assignment, put together from what each element of L asks of its
image. `GrammarRule.Matches` is that condition. It has two layers.
`GrammarRule.OccursAt` speaks of the elements that a phase covers, one by one;
`Matches` adds the conditions on the match as a whole, of which the one on
negative elements is again that something does not occur.

That the recognizer finds exactly these assignments is the subject of
`GraphGrammar.Proofs.Recognition`.

The conditions are structures with named fields and not conjunctions, since most of what is shown
of a match takes one of them and leaves the others alone. Each test on attributes that the
recognizer makes has a lemma here that turns it into the condition it decides, so that no proof
about the search looks inside a test.
-/

namespace GraphGrammar

/-! ## What the attributes must be like

A comparison of labels is one of four tests on two label sets. What each of them comes to is said
of the lists of labels, whatever order they stand in and whether or not a label is listed twice. -/

/-- What a comparison of labels asks. -/
def LabelMatch.Met : LabelMatch → LabelSet → LabelSet → Prop
  | subset, pattern, host => ∀ label ∈ pattern.toList, label ∈ host.toList
  | exact, pattern, host =>
    host.size = pattern.size ∧ ∀ label ∈ pattern.toList, label ∈ host.toList
  | any, pattern, host => pattern.toList = [] ∨ ∃ label ∈ pattern.toList, label ∈ host.toList

/-- What the common part of a condition asks. Each field is the condition that one test decides
(`Condition.admits_iff`). -/
structure Condition.Met (c : Condition) (pattern host : Attributes) : Prop where
  labels : c.labelMatch.Met pattern.labels host.labels
  absent : ∀ label ∈ c.negateLabels.toList, label ∉ host.labels.toList
  values : ∀ constraint ∈ c.variableConstraints, constraint.holds host.values = true

/-- The test for all labels looks each of them up. -/
theorem LabelSet.containsAll_iff {s other : LabelSet} :
    s.containsAll other = true ↔ ∀ label ∈ other.toList, label ∈ s.toList := by
  rw [containsAll, List.all_eq_true]
  exact forall₂_congr fun _ _ => contains_iff_mem

/-- The test for any label is passed by the first one that is found. -/
theorem LabelSet.containsAny_iff {s other : LabelSet} :
    s.containsAny other = true ↔ ∃ label ∈ other.toList, label ∈ s.toList := by
  rw [containsAny, List.any_eq_true]
  exact exists_congr fun _ => and_congr_right fun _ => contains_iff_mem

/-- The negative form of `containsAny_iff`, which is what a condition that forbids labels asks
for. -/
theorem LabelSet.containsAny_eq_false_iff {s other : LabelSet} :
    s.containsAny other = false ↔ ∀ label ∈ other.toList, label ∉ s.toList := by
  rw [← Bool.not_eq_true, containsAny_iff]
  exact ⟨fun h label hmem hs => h ⟨label, hmem, hs⟩, fun h ⟨label, hmem, hs⟩ => h label hmem hs⟩

/-- The test for the same labels compares the numbers of labels, and then looks for the labels of
one set only in the other. That this is equality of sets is a fact about label sets that list no
label twice, `LabelSet.sameLabels_iff_of_distinct`. -/
theorem LabelSet.sameLabels_iff {s other : LabelSet} :
    s.sameLabels other = true ↔
      s.size = other.size ∧ ∀ label ∈ other.toList, label ∈ s.toList := by
  rw [sameLabels, Bool.and_eq_true, beq_iff_eq, containsAll_iff]

/-- **The comparison of labels decides what it is said to ask.** -/
theorem LabelMatch.matches_iff {mode : LabelMatch} {pattern host : LabelSet} :
    mode.matches pattern host = true ↔ mode.Met pattern host := by
  cases mode with
  | subset => exact LabelSet.containsAll_iff
  | exact => exact LabelSet.sameLabels_iff
  | any =>
    show (pattern.isEmpty || host.containsAny pattern) = true ↔ _
    rw [Bool.or_eq_true, LabelSet.containsAny_iff, LabelSet.isEmpty, List.isEmpty_iff]
    exact Iff.rfl

/-- **The common part of a condition is decided by its test**, for an element of any kind. -/
theorem Condition.admits_iff {c : Condition} {pattern host : Attributes} :
    c.admits pattern host = true ↔ c.Met pattern host := by
  rw [admits, Bool.and_eq_true, Bool.and_eq_true, LabelMatch.matches_iff, Bool.not_eq_true',
    LabelSet.containsAny_eq_false_iff, List.all_eq_true]
  exact ⟨fun ⟨⟨hlabels, habsent⟩, hvalues⟩ => ⟨hlabels, habsent, hvalues⟩,
    fun h => ⟨⟨h.labels, h.absent⟩, h.values⟩⟩

/-! ## What each element asks of its image -/

variable {rule : GrammarRule} {host : Graph} {a b : Assignment}

/-- The arc ends and hyperarcs of L that count as being at a node: those of
positive arcs and hyperarcs, and at a negative node all. -/
def GrammarRule.patternDegree (rule : GrammarRule) (key : NodeKey) : Nat :=
  ((rule.l.arcs.entries.filter fun entry =>
      rule.isNegativeNode key || !rule.isNegativeArc entry.1).flatMap (·.2.ends)).count key
    + (rule.l.hyperarcs.entries.filter fun entry =>
      (rule.isNegativeNode key || !rule.isNegativeHyperArc entry.1)
        && entry.2.contains key).length

/-- What a node of L asks of its image. The degree is compared if the condition asks for it. That
it is not too small follows for any match and is not asked here. -/
structure GrammarRule.NodeSuits (rule : GrammarRule) (host : Graph) (key image : NodeKey)
    (node given : Node) : Prop where
  met : (rule.nodeCondition key).Met node.toAttributes given.toAttributes
  typeTag : (rule.nodeCondition key).restrictToType = true → given.typeTag = node.typeTag
  degree : (rule.nodeCondition key).strictDegree = true →
    host.degree image = rule.patternDegree key

/-- What an end of an arc of L asks of an end of the image: to be at the image
of its node, and if it dangles nothing, or to dangle too. -/
def ArcCondition.EndMet (condition : ArcCondition) (a : Assignment) :
    Option NodeKey → Option NodeKey → Prop
  | some node, given => ∃ image, a.node? node = some image ∧ given = some image
  | none, given => condition.danglingMeansDangling = true → given = none

/-- An arc of L lies along two host ends, the source at the first. -/
def ArcCondition.LiesAlong (condition : ArcCondition) (a : Assignment) (arc : Arc)
    (source target : Option NodeKey) : Prop :=
  condition.EndMet a arc.source source ∧ condition.EndMet a arc.target target

/-- **What an arc of L asks of its image.** It may be met back to front if the
arc has no orientation or the image points both ways. -/
structure GrammarRule.ArcSuits (rule : GrammarRule) (a : Assignment) (key : ArcKey)
    (arc given : Arc) : Prop where
  met : (rule.arcCondition key).Met arc.toAttributes given.toAttributes
  flags : (rule.arcCondition key).directionIsEqual = true →
    given.directed = arc.directed ∧ given.doublyDirected = arc.doublyDirected
  directed : arc.isOriented = true → given.directed = true
  lies : (rule.arcCondition key).LiesAlong a arc given.source given.target ∨
    ((arc.isOriented = false ∨ given.doublyDirected = true) ∧
      (rule.arcCondition key).LiesAlong a arc given.target given.source)

/-- What a hyperarc of L asks of its image. The image may have more members than the hyperarc,
unless the condition asks for as many. -/
structure GrammarRule.HyperArcSuits (rule : GrammarRule) (a : Assignment) (key : HyperArcKey)
    (hyperarc given : HyperArc) : Prop where
  met : (rule.hyperarcCondition key).Met hyperarc.toAttributes given.toAttributes
  memberCount : (rule.hyperarcCondition key).strictMemberCount = true →
    given.members.length = hyperarc.members.length
  members : ∀ member ∈ hyperarc.members, ∃ image, a.node? member = some image ∧
    image ∈ given.members

/-- What an element of L asks of the element in a slot of the host, which must
be there. -/
def GrammarRule.Suits (rule : GrammarRule) (host : Graph) (a : Assignment) :
    PatternElement → Nat → Prop
  | .node key, slot => ∃ node given, rule.l.node? key = some node ∧
    host.node? ⟨slot⟩ = some given ∧ rule.NodeSuits host key ⟨slot⟩ node given
  | .arc key, slot => ∃ arc given, rule.l.arc? key = some arc ∧
    host.arc? ⟨slot⟩ = some given ∧ rule.ArcSuits a key arc given
  | .hyperarc key, slot => ∃ hyperarc given, rule.l.hyperarc? key = some hyperarc ∧
    host.hyperarc? ⟨slot⟩ = some given ∧ rule.HyperArcSuits a key hyperarc given

/-- The nodes that an element of L refers to. -/
def GrammarRule.nodesAt (rule : GrammarRule) : PatternElement → List NodeKey
  | .node _ => []
  | .arc key => (rule.l.arc? key).elim [] Arc.ends
  | .hyperarc key => (rule.l.hyperarc? key).elim [] HyperArc.members

/-- The condition on an end looks at one image at most, so an assignment may be exchanged for
another that agrees on it. -/
theorem ArcCondition.EndMet.transfer {condition : ArcCondition} {wanted given : Option NodeKey}
    (h : condition.EndMet a wanted given)
    (hab : ∀ node image, wanted = some node → a.node? node = some image →
      b.node? node = some image) : condition.EndMet b wanted given := by
  cases wanted with
  | none => exact h
  | some node =>
    obtain ⟨image, himage, hgiven⟩ := h
    exact ⟨image, hab node image rfl himage, hgiven⟩

/-- The same for both ends of an arc. -/
theorem ArcCondition.LiesAlong.transfer {condition : ArcCondition} {arc : Arc}
    {source target : Option NodeKey} (h : condition.LiesAlong a arc source target)
    (hab : ∀ node ∈ arc.ends, ∀ image, a.node? node = some image → b.node? node = some image) :
    condition.LiesAlong b arc source target :=
  ⟨h.1.transfer fun node image he => hab node (Arc.mem_ends.2 (.inl he)) image,
    h.2.transfer fun node image he => hab node (Arc.mem_ends.2 (.inr he)) image⟩

/-- **What an element asks depends on the images of its nodes only.** -/
theorem GrammarRule.Suits.transfer {e : PatternElement} {slot : Nat} (h : rule.Suits host a e slot)
    (hab : ∀ node ∈ rule.nodesAt e, ∀ image, a.node? node = some image →
      b.node? node = some image) : rule.Suits host b e slot := by
  cases e with
  | node key => exact h
  | arc key =>
    obtain ⟨arc, given, harc, hgiven, hsuits⟩ := h
    rw [GrammarRule.nodesAt, harc] at hab
    refine ⟨arc, given, harc, hgiven, hsuits.met, hsuits.flags, hsuits.directed, ?_⟩
    exact hsuits.lies.imp (·.transfer hab) (And.imp_right (·.transfer hab))
  | hyperarc key =>
    obtain ⟨hyperarc, given, hhyperarc, hgiven, hsuits⟩ := h
    rw [GrammarRule.nodesAt, hhyperarc] at hab
    refine ⟨hyperarc, given, hhyperarc, hgiven, hsuits.met, hsuits.memberCount, ?_⟩
    intro member hmember
    obtain ⟨image, himage, hmem⟩ := hsuits.members member hmember
    exact ⟨image, hab member hmember image himage, hmem⟩

/-- What an element asks stays granted when more elements are assigned. -/
theorem GrammarRule.Suits.mono {e : PatternElement} {slot : Nat} (h : rule.Suits host a e slot)
    (hab : a.PartOf b) : rule.Suits host b e slot := h.transfer fun _ _ _ himage => hab.node himage

/-! ## Occurrences and matches

The search is in the middle of things most of the time. `GrammarRule.Underway` is therefore the
condition that it keeps: it speaks of the elements that have had their turn, and with nothing
left to assign it is `GrammarRule.OccursAt`. -/

/-- **An assignment gives each element that a phase covers a suitable image, each its own, and
nothing else an image.** Nothing is said of how it was found. The phase says whether the negative
elements are among those to be assigned. -/
structure GrammarRule.OccursAt (rule : GrammarRule) (host : Graph) (phase : Phase)
    (a : Assignment) : Prop where
  shaped : a.Shaped rule.l
  assigned : ∀ e, (a.image? e).isSome = true ↔
    rule.hasElement e = true ∧ phase.covers (rule.isNegative e) = true
  distinct : a.Distinct
  suits : ∀ e slot, a.image? e = some slot → rule.Suits host a e slot

/-- An assignment on the way to an occurrence: the elements that are pending
have no images yet. -/
structure GrammarRule.Underway (rule : GrammarRule) (host : Graph) (phase : Phase)
    (pending : List PatternElement) (a : Assignment) : Prop where
  shaped : a.Shaped rule.l
  assigned : ∀ e, (a.image? e).isSome = true ↔
    (rule.hasElement e = true ∧ phase.covers (rule.isNegative e) = true) ∧ e ∉ pending
  distinct : a.Distinct
  suits : ∀ e slot, a.image? e = some slot → rule.Suits host a e slot

/-- At the end of a plan, an assignment that is underway is an occurrence. -/
theorem GrammarRule.underway_nil_iff {phase : Phase} :
    rule.Underway host phase [] a ↔ rule.OccursAt host phase a := by
  have hnil : ∀ (e : PatternElement) (p : Prop), p ∧ e ∉ [] ↔ p :=
    fun e p => and_iff_left List.not_mem_nil
  constructor
  · exact fun h => ⟨h.shaped, fun e => (h.assigned e).trans (hnil e _), h.distinct, h.suits⟩
  · exact fun h => ⟨h.shaped, fun e => (h.assigned e).trans (hnil e _).symm, h.distinct, h.suits⟩

/-- A plan assigns elements of one phase, nodes before the arcs and hyperarcs that refer to them.
The order among nodes is left open, since it is a matter of speed. -/
structure GrammarRule.Plans (rule : GrammarRule) (phase : Phase) (plan : List PatternElement) :
    Prop where
  elements : ∀ e ∈ plan, rule.hasElement e = true ∧ phase.assigns (rule.isNegative e) = true
  nodup : plan.Nodup
  nodes_first : plan.Pairwise fun e other => other.kind = .node → e.kind = .node

/-- **A match of a rule in a host.** Negative elements are forbidden together: if there are any,
no assignment may assign all of them besides. -/
structure GrammarRule.Matches (rule : GrammarRule) (host : Graph) (a : Assignment) : Prop where
  occurs : rule.OccursAt host .positive a
  /-- Every host node is an image. -/
  spanning : rule.spanning = true → ∀ key, host.hasNode key = true → key ∈ a.nodeImages
  /-- Every host arc between images is an image. -/
  induced : rule.induced = true → ∀ key arc, host.arc? key = some arc →
    (∃ source ∈ a.nodeImages, arc.source = some source) →
    (∃ target ∈ a.nodeImages, arc.target = some target) → key ∈ a.arcImages
  /-- The negative elements, if there are any, do not all occur as well. -/
  forbidden : (∃ e, rule.hasElement e = true ∧ rule.isNegative e = true) →
    ¬ ∃ b, rule.OccursAt host .negative b ∧ a.PartOf b

/-- What a rule asks of the labels and variables of the host as a whole. Where the order of
labels matters, they are to be there in one run. -/
structure GrammarRule.GlobalsMet (rule : GrammarRule) (host : Graph) : Prop where
  absent : ∀ label ∈ rule.negateGlobalLabels.toList, label ∉ host.globalLabels.toList
  /-- The labels of L are there, in one run if their order matters. -/
  labels : if rule.orderedGlobalLabels then
      rule.l.globalLabels.toList <:+: host.globalLabels.toList
    else ∀ label ∈ rule.l.globalLabels.toList, label ∈ host.globalLabels.toList
  size : rule.containsAllGlobalLabels = true → host.globalLabels.size = rule.l.globalLabels.size
  values : ∀ constraint ∈ rule.globalVariableConstraints,
    constraint.holds host.globalVariables = true

end GraphGrammar
