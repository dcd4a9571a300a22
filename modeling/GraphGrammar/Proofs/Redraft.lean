import GraphGrammar.Proofs.ExactRule

/-!
# Rules that are taken apart and built again

Taking a rule apart gives its context, whatever it was before, and lists the conditions that
say something. Building the parts again leads to the same rule (`RuleDraft.build_toDraft`).
What makes it so:

* the graphs of a rule are copies, which pass their check and are their own copies;
* the context fits both sides. A derived one does by the way it is made, and a given one did
  when it was checked, of which its copy is no worse (`Context.Fits.copy`);
* a condition that is not listed is found again, as it is the one that says nothing
  (`RuleDraft.conditionsOf_namedConditions`).

The rule that comes back is equal to the one that was taken apart, as a whole and with its keys.
So a rule may be stored as its draft, and nothing that was shown of it has to be shown again.
-/

namespace GraphGrammar

open Attributed

/-! ## Graphs that passed their check

A given graph is only known to have passed its check, which says nothing of its indices. What is
needed here is that names are distinct and references alive, and this much the check does say. -/

namespace Graph

variable {g : Graph}

/-- What passes a check has distinct names, and each element passes it. -/
theorem of_checkAll_eq_ok {κ : Kind} {α : Type} [Attributed α]
    {check : α → Outcome GraphError Unit} {elements : List α} {seen : List Name}
    (h : checkAll κ check elements seen = .ok ()) :
    (elements.map nameOf).Nodup ∧ ∀ a ∈ elements, nameOf a ∉ seen ∧ check a = .ok () := by
  induction elements generalizing seen with
  | nil => exact ⟨List.nodup_nil, fun _ ha => absurd ha List.not_mem_nil⟩
  | cons a rest ih =>
    unfold checkAll at h
    dsimp only at h
    split at h
    · cases h
    · rename_i hnew
      obtain ⟨_, hcheck, h⟩ := bind_eq_ok_iff.1 h
      obtain ⟨hnodup, hrest⟩ := ih h
      refine ⟨List.nodup_cons.2 ⟨fun hmem => ?_, hnodup⟩, fun b hb => ?_⟩
      · obtain ⟨b, hb, heq⟩ := List.mem_map.1 hmem
        exact (hrest b hb).1 (heq ▸ List.mem_cons_self)
      · rcases List.mem_cons.1 hb with rfl | hb
        · exact ⟨fun hmem => hnew (List.contains_iff_mem.2 hmem), hcheck⟩
        · obtain ⟨hunseen, hcheck⟩ := hrest b hb
          exact ⟨fun hmem => hunseen (List.mem_cons_of_mem _ hmem), hcheck⟩

/-- The names of a graph are distinct within each kind. The indices may say anything. A graph may
have passed its check and still have indices that are out of order. -/
structure NamesDistinct (g : Graph) : Prop where
  nodes : (g.nodes.elements.map nameOf).Nodup
  arcs : (g.arcs.elements.map nameOf).Nodup
  hyperarcs : (g.hyperarcs.elements.map nameOf).Nodup

/-- What a graph that passed its check is like: names are distinct, and every end and
member is alive. -/
theorem of_validate (h : g.validate = .ok ()) :
    g.NamesDistinct ∧ (∀ arc ∈ g.arcs.elements, ∀ node ∈ arc.ends, g.hasNode node = true) ∧
      ∀ hyperarc ∈ g.hyperarcs.elements, ∀ node ∈ hyperarc.members, g.hasNode node = true := by
  obtain ⟨_, hnodes, h⟩ := bind_eq_ok_iff.1 (Outcome.supersede_eq_ok_iff.1 h)
  obtain ⟨_, harcs, hhyperarcs⟩ := bind_eq_ok_iff.1 h
  obtain ⟨harcNames, harcs⟩ := of_checkAll_eq_ok harcs
  obtain ⟨hhyperarcNames, hhyperarcs⟩ := of_checkAll_eq_ok hhyperarcs
  exact ⟨⟨(of_checkAll_eq_ok hnodes).1, harcNames, hhyperarcNames⟩,
    fun arc harc => ends_alive_of_checkEnds (harcs arc harc).2,
    fun hyperarc hh => members_alive_of_checkMembers (hhyperarcs hyperarc hh).2⟩

/-- A graph that passed its check has distinct names. -/
theorem namesDistinct_of_validate (h : g.validate = .ok ()) : g.NamesDistinct :=
  (of_validate h).1

/-- A node bears the same name in the copy. -/
theorem nodeName?_copy (h : g.NamesDistinct) {node copied : NodeKey}
    (hcopied : g.renumbering.lookup node = some copied) :
    g.copy.nodeName? (some copied) = g.nodeName? (some node) := by
  obtain ⟨hlt, rfl⟩ := List.getElem?_eq_some_iff.1 (lookup_renumbering_iff.1 hcopied)
  refine congrArg (Option.map fun node : Node => node.name) ?_
  exact (Registry.get?_ofElements h.nodes _).trans (Registry.getElem?_elements hlt)

/-- The arcs of a copy, in their order. -/
theorem arcs_copy (h : g.NamesDistinct) :
    g.copy.arcs.elements = g.arcs.elements.map (·.mapEnds (g.renumbering.lookup ·)) := by
  refine Registry.elements_ofElements ?_
  rw [List.map_map]
  exact h.arcs

/-- The hyperarcs of a copy, in their order. -/
theorem hyperarcs_copy (h : g.NamesDistinct) :
    g.copy.hyperarcs.elements
      = g.hyperarcs.elements.map (·.mapMembers (g.renumbering.lookup ·)) := by
  refine Registry.elements_ofElements ?_
  rw [List.map_map]
  exact h.hyperarcs

end Graph

/-- A context whose names are distinct fits after copying where it fitted before. -/
theorem Context.Fits.copy {k side : Graph} (h : Fits k side) (hnames : k.NamesDistinct) :
    Fits k.copy side where
  nodes node hnode := by
    refine h.nodes node ?_
    rwa [← Registry.elements_ofElements (κ := .node) hnames.nodes]
  arcs arc harc := by
    rw [Graph.arcs_copy hnames] at harc
    obtain ⟨given, hgiven, rfl⟩ := List.mem_map.1 harc
    obtain ⟨other, hother, hends⟩ := h.arcs given hgiven
    refine ⟨other, hother, fun e copied hend => ?_⟩
    have hcopied : (given.atEnd e).bind (k.renumbering.lookup ·) = some copied := by
      cases e <;> exact hend
    obtain ⟨node, hnode, hlookup⟩ := Option.bind_eq_some_iff.1 hcopied
    exact (Graph.nodeName?_copy hnames hlookup).trans (hends e node hnode)
  hyperarcs hyperarc hhyperarc := by
    rw [Graph.hyperarcs_copy hnames] at hhyperarc
    obtain ⟨given, hgiven, rfl⟩ := List.mem_map.1 hhyperarc
    obtain ⟨other, hother, hmembers⟩ := h.hyperarcs given hgiven
    refine ⟨other, hother, fun copied hcopied => ?_⟩
    obtain ⟨node, hnode, hlookup⟩ := List.mem_filterMap.1
      (show copied ∈ given.members.filterMap (k.renumbering.lookup ·) from hcopied)
    obtain ⟨member, hmember, hname⟩ := hmembers node hnode
    exact ⟨member, hmember, hname.trans (Graph.nodeName?_copy hnames hlookup).symm⟩

namespace RuleDraft

/-- **The context of a rule fits both sides, and nothing in it is dead or missing.** -/
theorem context_fits {given : Option Graph} {l r k : Graph} (hl : l.Linked)
    (h : context given l r = .ok k) :
    (Context.Fits k l ∧ Context.Fits k r) ∧ k.Linked ∧ k.Compact := by
  cases given with
  | none =>
    cases (Context.derive_eq l r).symm.trans h
    exact ⟨Context.fits_shared hl.nodes_indexed hl.arcs_indexed hl.hyperarcs_indexed,
      (Context.wellFormed_shared l r).linked, Context.compact_shared l r⟩
  | some given =>
    obtain ⟨hvalid, hcheck, rfl⟩ := of_given_context_eq_ok h
    have hnames := Graph.namesDistinct_of_validate hvalid
    obtain ⟨hfits, hfits'⟩ := Context.check_eq_ok_iff.1 hcheck
    exact ⟨⟨hfits.copy hnames, hfits'.copy hnames⟩, given.linked_copy, given.compact_copy⟩

/-- A context that fits is taken as it is. -/
theorem context_eq_ok {l r k : Graph} (hfits : Context.Fits k l ∧ Context.Fits k r)
    (hk : k.Linked) (hcompact : k.Compact) : context (some k) l r = .ok k := by
  have hvalid : k.validate.supersede (RuleError.malformedGraph .k) = .ok () :=
    Outcome.supersede_eq_ok_iff.2 hk.validate_eq_ok
  unfold context
  dsimp only
  rw [hvalid, bind_of_eq_ok rfl, bind_of_eq_ok (Context.check_eq_ok_iff.2 hfits),
    hk.copy_eq_self hcompact]
  rfl

/-! ## Conditions

Conditions that say nothing are not listed, since a missing condition is taken for one that says
nothing. The test that leaves them out compares conditions, and it must not mistake another
condition for the empty one. -/

section

variable {κ : Kind} {α γ : Type} [Attributed α] [BEq γ] [Inhabited γ] {elements : Registry κ α}
  {conditions : List γ}

omit [BEq γ] [Inhabited γ] in
/-- Conditions are listed under the names of their elements. -/
theorem fst_zip_names (hlength : conditions.length = elements.elements.length) :
    ((elements.elements.map nameOf).zip conditions).map Prod.fst = elements.elements.map nameOf :=
  List.map_fst_zip (by rw [List.length_map, hlength])

/-- No name has two conditions, and leaving some out does not change that. -/
theorem nodup_namedConditions (h : Graph.Indexed elements)
    (hlength : conditions.length = elements.elements.length) :
    ((((elements.elements.map nameOf).zip conditions).filter (·.2 != default)).map
      Prod.fst).Nodup := by
  refine List.Nodup.sublist (List.filter_sublist.map Prod.fst) ?_
  rw [fst_zip_names hlength]
  exact h.nodup_names_elements

/-- Every condition that is listed is for an element. -/
theorem checkTargets_namedConditions (h : Graph.Indexed elements)
    (hlength : conditions.length = elements.elements.length) :
    checkTargets elements (GrammarRule.namedConditions elements.elements conditions) = .ok () := by
  unfold checkTargets
  rw [List.find?_eq_none.2 fun name hname => ?_]
  obtain ⟨value, hvalue⟩ := NameMap.contains_iff.1 (NameMap.mem_names_iff.1 hname)
  have hentry := (NameMap.find?_ofList (nodup_namedConditions h hlength)).1 hvalue
  have hmem : name ∈ elements.elements.map nameOf :=
    fst_zip_names hlength ▸ List.mem_map_of_mem (List.mem_of_mem_filter hentry)
  obtain ⟨a, ha, rfl⟩ := List.mem_map.1 hmem
  obtain ⟨key, hkey⟩ := Registry.mem_elements_iff.1 ha
  rw [h.find?_eq_some hkey]
  exact Bool.false_ne_true

/-- **Each element gets the condition back that it had**, if no other condition passes for the
one that says nothing. Names are distinct, so what is listed under the name of an element is its
own condition; and an element of which nothing is listed had the condition that says nothing. -/
theorem conditionsOf_namedConditions (h : Graph.Indexed elements)
    (hlength : conditions.length = elements.elements.length)
    (hdefault : ∀ condition : γ, (condition == default) = true → condition = default) :
    conditionsOf elements (GrammarRule.namedConditions elements.elements conditions)
      = conditions := by
  have hnodup := nodup_namedConditions h hlength
  refine List.ext_getElem (by rw [conditionsOf, List.length_map, hlength]) fun i hi hi' => ?_
  have hplace : i < elements.elements.length := hlength ▸ hi'
  have hentry : (nameOf elements.elements[i], conditions[i])
      ∈ (elements.elements.map nameOf).zip conditions := by
    refine List.mem_iff_getElem.2 ⟨i, by simpa using ⟨hplace, hi'⟩, ?_⟩
    rw [List.getElem_zip, List.getElem_map]
  simp only [conditionsOf, List.getElem_map]
  cases hsays : conditions[i] != default with
  | true =>
    have hfind : (GrammarRule.namedConditions elements.elements conditions).find?
        (nameOf elements.elements[i]) = some conditions[i] :=
      (NameMap.find?_ofList hnodup).2 (List.mem_filter.2 ⟨hentry, hsays⟩)
    rw [hfind]
    rfl
  | false =>
    -- nothing is listed under the name, as it stands once in the list of all of them
    have hnone : (GrammarRule.namedConditions elements.elements conditions).find?
        (nameOf elements.elements[i]) = none := by
      refine Option.eq_none_iff_forall_ne_some.2 fun value hvalue => ?_
      obtain ⟨hmem, hvalueSays⟩ := List.mem_filter.1 ((NameMap.find?_ofList hnodup).1 hvalue)
      have hzip : (((elements.elements.map nameOf).zip conditions).map Prod.fst).Nodup := by
        rw [fst_zip_names hlength]
        exact h.nodup_names_elements
      have hvalueEq : value = conditions[i] := by
        have hlookup := lookup_of_mem hzip hmem
        rw [lookup_of_mem hzip hentry] at hlookup
        exact (Option.some.inj hlookup).symm
      rw [hvalueEq, hsays] at hvalueSays
      exact Bool.false_ne_true hvalueSays
    rw [hnone]
    exact (hdefault _ (by simpa [bne] using hsays)).symm

end

end RuleDraft

/-! ### The condition that says nothing

Conditions contain floating-point numbers, so their comparison is not that of equality. With the
condition that says nothing it is, since there are no numbers in that one. -/

/-- Tests of variables may hold numbers that are not equal to themselves, but the condition
that says nothing has none. -/
theorem Condition.eq_of_beq_empty {condition : Condition} (h : (condition == {}) = true) :
    condition = {} := by
  obtain ⟨labelMatch, negateLabels, negative, constraints⟩ := condition
  have hparts : (labelMatch == .subset && (negateLabels == .empty && (negative == false &&
      constraints == []))) = true := h
  simp only [Bool.and_eq_true, beq_iff_eq] at hparts
  obtain ⟨rfl, rfl, rfl, hconstraints⟩ := hparts
  cases constraints with
  | nil => rfl
  | cons _ _ => exact nomatch hconstraints

/-- A condition on a node that is taken for the one that says nothing, is it. -/
theorem NodeCondition.eq_of_beq_default (condition : NodeCondition)
    (h : (condition == default) = true) : condition = default := by
  obtain ⟨common, strictDegree, restrictToType⟩ := condition
  have hparts : (common == {} && (strictDegree == false && restrictToType == false)) = true := h
  simp only [Bool.and_eq_true, beq_iff_eq] at hparts
  obtain ⟨hcommon, rfl, rfl⟩ := hparts
  rw [Condition.eq_of_beq_empty hcommon]
  rfl

/-- A condition on an arc that is taken for the one that says nothing, is it. -/
theorem ArcCondition.eq_of_beq_default (condition : ArcCondition)
    (h : (condition == default) = true) : condition = default := by
  obtain ⟨common, directionIsEqual, danglingMeansDangling⟩ := condition
  have hparts : (common == {} && (directionIsEqual == false &&
      danglingMeansDangling == false)) = true := h
  simp only [Bool.and_eq_true, beq_iff_eq] at hparts
  obtain ⟨hcommon, rfl, rfl⟩ := hparts
  rw [Condition.eq_of_beq_empty hcommon]
  rfl

/-- A condition on a hyperarc that is taken for the one that says nothing, is it. -/
theorem HyperArcCondition.eq_of_beq_default (condition : HyperArcCondition)
    (h : (condition == default) = true) : condition = default := by
  obtain ⟨common, strictMemberCount⟩ := condition
  have hparts : (common == {} && strictMemberCount == false) = true := h
  simp only [Bool.and_eq_true, beq_iff_eq] at hparts
  obtain ⟨hcommon, rfl⟩ := hparts
  rw [Condition.eq_of_beq_empty hcommon]
  rfl

/-! ## The rule

Taken apart, a rule has its context given. So the two ways in which a context comes about meet
here: one that was derived is given the second time. -/

/-- The context of a rule that was built fits its sides. -/
theorem GrammarRule.Built.context_fits {rule : GrammarRule} (h : rule.Built) :
    Context.Fits rule.k rule.l ∧ Context.Fits rule.k rule.r := by
  obtain ⟨draft, -, hbuild⟩ := h
  have h := RuleDraft.assembles_of_build hbuild
  exact (RuleDraft.context_fits (h.l ▸ draft.l.linked_copy) h.context).1

/-- **A rule that was built is built again from the parts it is taken apart into.** Equality is
that of the whole rule, its correspondences included. Every step of the second building is that
of the first with the same things in it: the sides are copies and hence their own copies, and so
is the context; the conditions come back one by one. -/
theorem RuleDraft.build_toDraft {draft : RuleDraft} {rule : GrammarRule}
    (h : draft.build = .ok rule) : rule.toDraft.build = .ok rule := by
  have hassemble : draft.assemble = .ok rule := Outcome.note_eq_ok_iff.1 h
  simp only [assemble, bind_eq_ok_iff] at hassemble
  obtain ⟨_, -, _, -, _, -, _, -, _, -, _, harcs, _, hhyperarcs, k, hk, contextNodes, hnodePairs,
    contextArcs, harcPairs, contextHyperArcs, hhyperarcPairs, _, hembedding, hrule⟩ := hassemble
  cases hrule
  have hl := draft.l.linked_copy
  have hr := draft.r.linked_copy
  obtain ⟨hfits, hlinked, hcompact⟩ := context_fits hl hk
  have hlength : ∀ {κ : Kind} {α γ : Type} [Attributed α] [Inhabited γ] (elements : Registry κ α)
      (conditions : NameMap γ),
      (conditionsOf elements conditions).length = elements.elements.length :=
    fun _ _ => List.length_map _
  -- the graphs are their own copies, and each list of conditions is found again
  refine Outcome.note_eq_ok_iff.2 ?_
  unfold assemble GrammarRule.toDraft
  dsimp only
  rw [hl.validate_eq_ok, hr.validate_eq_ok, hl.copy_eq_self draft.l.compact_copy,
    hr.copy_eq_self draft.r.compact_copy,
    conditionsOf_namedConditions hl.nodes_indexed (hlength _ _) NodeCondition.eq_of_beq_default,
    conditionsOf_namedConditions hl.arcs_indexed (hlength _ _) ArcCondition.eq_of_beq_default,
    conditionsOf_namedConditions hl.hyperarcs_indexed (hlength _ _)
      HyperArcCondition.eq_of_beq_default]
  simp only [bind_eq_ok_iff]
  exact ⟨(), rfl, (), rfl, (), checkTargets_namedConditions hl.nodes_indexed (hlength _ _), (),
    checkTargets_namedConditions hl.arcs_indexed (hlength _ _), (),
    checkTargets_namedConditions hl.hyperarcs_indexed (hlength _ _), (), harcs, (), hhyperarcs, k,
    context_eq_ok hfits hlinked hcompact, contextNodes, hnodePairs, contextArcs, harcPairs,
    contextHyperArcs, hhyperarcPairs, (), hembedding, rfl⟩

/-- The draft of a rule that lets go of one node of an edge without a neighbour. The edge
and a hyperarc stay, without that node; the neighbour must not be there. -/
def RuleDraft.letGo : RuleDraft where
  name := "let go"
  l :=
    { nodes := .ofElements [{ name := "a" }, { name := "b" }, { name := "x" }]
      arcs := .ofElements [{ name := "e", source := some ⟨0⟩, target := some ⟨1⟩ },
        { name := "f", source := some ⟨0⟩, target := some ⟨2⟩ }]
      hyperarcs := .ofElements [{ name := "h", members := [⟨1⟩, ⟨0⟩] }] }
  r :=
    { nodes := .ofElements [{ name := "a" }]
      arcs := .ofElements [{ name := "e", source := some ⟨0⟩ }]
      hyperarcs := .ofElements [{ name := "h", members := [⟨0⟩] }] }
  nodeConditions := .ofList [("x", { negative := true }), ("a", { strictDegree := true }),
    ("b", {})]
  arcConditions := .ofList [("f", { negative := true })]
  embeddingRules := [{ rNode := "a", lNode := some "b" }]

/-- The context is derived the first time and given the second time. -/
theorem RuleDraft.build_toDraft_letGo :
    ∃ rule, letGo.build = .ok rule ∧ rule.toDraft.build = .ok rule := by
  have hbuilt : letGo.build.toBool = true := by decide +kernel
  cases hrule : letGo.build with
  | error failure =>
    rw [hrule] at hbuilt
    exact nomatch hbuilt
  | ok rule => exact ⟨rule, rfl, build_toDraft hrule⟩

end GraphGrammar
