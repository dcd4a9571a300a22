import GraphGrammar.Proofs.RuleSet
import GraphGrammar.Proofs.Unplaced

/-!
# Recognition does not look at positions

The search for occurrences of L in a host is the same search once both are unplaced
(`Occurrence.run_unplaced`): the candidates for an element and the tests that it has to
pass are the same, so the same assignments are found in as many steps. A position is
read only when an option is made of an assignment, for the transform that the option
carries. The options of a rule, and those of a rule set, are therefore the same but for
these transforms (`RuleSet.recognizeWhere_unplaced`).

Since the search is the same function of the unplaced search, there is nothing to be shown by
induction but for the two functions that recurse on the plan (`canExtend_unplaced`,
`search_unplaced`). What a rule
set has found so far is known up to positions only, so its lemma starts from two findings that are
equal up to these.
-/

namespace GraphGrammar

/-! ## The search

Every function of the search is unplaced in turn, from the tests of one element to the whole. -/

namespace Occurrence

variable (s : Occurrence)

/-- The search with the nodes of both graphs at the origin. -/
def unplaced : Occurrence := { s with host := s.host.unplaced, rule := s.rule.unplaced }

/-- A search for the unplaced rule in the unplaced host is the search unplaced. The tables are
built from arcs and hyperarcs. -/
theorem ofRule_unplaced (host : Graph) (rule : GrammarRule) :
    ofRule host.unplaced rule.unplaced = (ofRule host rule).unplaced := by
  unfold ofRule Surroundings.ofGraph Adjacency.ofGraph
  simp only [GrammarRule.l_unplaced, Graph.length_cells_unplaced]
  rfl

/-- The candidates are keys. -/
theorem nodeCandidates_unplaced : s.unplaced.nodeCandidates = s.nodeCandidates := by
  funext phase a key
  unfold nodeCandidates
  rw [show s.unplaced.host.nodes.keys = s.host.nodes.keys from s.host.keys_unplaced]
  cases phase <;> rfl

/-- A node fits by its labels, its variables, its type tag and its degree. -/
theorem nodeFits_unplaced : s.unplaced.nodeFits = s.nodeFits := by
  have hpasses : ∀ phase key image (node host : Node),
      s.unplaced.nodePasses phase key image node.unplaced host.unplaced
        = s.nodePasses phase key image node host := by
    intro phase key image node host
    cases phase <;> rfl
  have hconnects : s.unplaced.nodeConnects = s.nodeConnects := by
    funext phase
    cases phase <;> rfl
  funext phase a key image
  unfold nodeFits
  rw [hconnects, show s.unplaced.rule.l.node? key = _ from s.rule.l.node?_unplaced key,
    show s.unplaced.host.node? image = _ from s.host.node?_unplaced image]
  cases s.rule.l.node? key with
  | none => rfl
  | some node =>
    cases s.host.node? image with
    | none => rfl
    | some host =>
      dsimp only [Option.map_some]
      rw [hpasses]

/-- **An element fits wherever the nodes are put.** -/
theorem extensions_unplaced : s.unplaced.extensions = s.extensions := by
  funext phase a e
  cases e with
  | node key =>
    dsimp only [extensions]
    rw [nodeCandidates_unplaced, nodeFits_unplaced]
  | arc key => rfl
  | hyperarc key => rfl

theorem positivePlan_unplaced : s.unplaced.positivePlan = s.positivePlan := by
  unfold positivePlan
  dsimp only
  rw [show s.unplaced.rule.l.nodes.keys = s.rule.l.nodes.keys from s.rule.l.keys_unplaced]
  rfl

theorem negativePlan_unplaced : s.unplaced.negativePlan = s.negativePlan := by
  unfold negativePlan
  dsimp only
  rw [show s.unplaced.rule.l.nodes.keys = s.rule.l.nodes.keys from s.rule.l.keys_unplaced]
  rfl

/-- By induction on the negative elements that are left. -/
theorem canExtend_unplaced (limits : Limits) :
    ∀ (plan : List PatternElement) (a : Assignment) (p : Progress),
      s.unplaced.canExtend limits plan a p = s.canExtend limits plan a p
  | [], _, _ => rfl
  | e :: rest, a, p => by
    rw [canExtend, canExtend, extensions_unplaced]
    simp only [canExtend_unplaced limits rest]

/-- What is asked of an assignment as a whole has the same answer. -/
theorem conclude_unplaced (limits : Limits) : s.unplaced.conclude limits = s.conclude limits := by
  funext a p
  unfold conclude
  rw [negativePlan_unplaced, canExtend_unplaced]
  rfl

/-- **The search finds the same in as many steps.** -/
theorem search_unplaced (limits : Limits) :
    ∀ (plan : List PatternElement) (a : Assignment) (p : Progress),
      s.unplaced.search limits plan a p = s.search limits plan a p
  | [], a, p => by rw [search, search, conclude_unplaced]
  | e :: rest, a, p => by
    rw [search, search, extensions_unplaced]
    simp only [search_unplaced limits rest]

theorem run_unplaced (limits : Limits) : s.unplaced.run limits = s.run limits := by
  unfold run
  rw [positivePlan_unplaced, search_unplaced]
  rfl

end Occurrence

/-! ## Options

An option has one field that depends on positions, and recognition up to positions leaves it out. -/

/-- The recognition without what its options say of positions. -/
def Recognition.unplaced (r : Recognition) : Recognition :=
  { r with options := r.options.map RuleOption.unplaced }

/-- What it means for two recognitions to be equal up to positions: the same status and steps,
and options that are equal up to their transforms. -/
theorem Recognition.unplaced_eq_iff {r r' : Recognition} : r'.unplaced = r.unplaced ↔
    r'.options.map RuleOption.unplaced = r.options.map RuleOption.unplaced ∧
      r'.status = r.status ∧ r'.steps = r.steps := by
  unfold unplaced
  rw [mk.injEq]

theorem numberOptions_unplaced (options : List RuleOption) :
    numberOptions (options.map RuleOption.unplaced)
      = (numberOptions options).map RuleOption.unplaced :=
  numberOptions_map (f := RuleOption.unplaced) (fun _ _ => rfl) options

theorem assignConfluence_unplaced (options : List RuleOption) :
    assignConfluence (options.map RuleOption.unplaced)
      = (assignConfluence options).map RuleOption.unplaced :=
  assignConfluence_map (f := RuleOption.unplaced) (fun _ _ => rfl) (fun _ => rfl)
    (fun _ _ => rfl) options

section

variable (host : Graph) (rule : GrammarRule)

/-- An option is made of an assignment with the transform that takes L there, and this is what
unplacing leaves out. The number, the images and the start of the global labels are the same. -/
theorem optionsOf_unplaced (starts : List (Option Nat)) (found : List Assignment) :
    (optionsOf host.unplaced rule.unplaced starts found).map RuleOption.unplaced
      = (optionsOf host rule starts found).map RuleOption.unplaced := by
  unfold optionsOf
  rw [← numberOptions_unplaced, ← numberOptions_unplaced, List.map_flatMap, List.map_flatMap]
  simp only [List.map_map]
  rfl

/-- **A rule has the same options wherever the nodes are put**, found in the same order
and in as many steps. -/
theorem recognize_unplaced (limits : Limits) :
    (recognize host.unplaced rule.unplaced limits).unplaced
      = (recognize host rule limits).unplaced := by
  have hstarts : globalLabelStarts rule.unplaced host.unplaced.globalLabels
      = globalLabelStarts rule host.globalLabels := rfl
  have hconstraints : rule.unplaced.globalVariableConstraints.all
      (·.holds host.unplaced.globalVariables)
        = rule.globalVariableConstraints.all (·.holds host.globalVariables) := rfl
  unfold recognize
  rw [hstarts, hconstraints, Occurrence.ofRule_unplaced, Occurrence.run_unplaced]
  dsimp only
  split
  · rfl
  split
  · rfl
  rw [Recognition.unplaced_eq_iff]
  refine ⟨?_, rfl, rfl⟩
  cases limits.maxOptions with
  | none => exact optionsOf_unplaced host rule _ _
  | some count =>
    dsimp only
    rw [List.map_take, List.map_take, optionsOf_unplaced]

end

/-! ## Rule sets -/

namespace RuleSet

/-- The rule set with the nodes of its rules at the origin. -/
def unplaced (s : RuleSet) : RuleSet := { s with rules := s.rules.map GrammarRule.unplaced }

/-- By induction on the rules still to come. What was found for a rule has its options numbered
for the set, and numbers are no positions. -/
theorem recognizeFrom_unplaced (index : Nat) (host : Graph) (limits : Limits) :
    ∀ (rules : List (GrammarRule × Nat)) {sofar sofar' : Recognition},
      sofar'.unplaced = sofar.unplaced →
      (recognizeFrom index host.unplaced limits (rules.map (Prod.map GrammarRule.unplaced id))
        sofar').unplaced
        = (recognizeFrom index host limits rules sofar).unplaced
  | [], _, _, h => h
  | (rule, ruleNumber) :: rest, sofar, sofar', h => by
    obtain ⟨hoptions, -, hsteps⟩ := Recognition.unplaced_eq_iff.1 h
    obtain ⟨hoptions', hstatus', hsteps'⟩ :=
      Recognition.unplaced_eq_iff.1 (GraphGrammar.recognize_unplaced host rule limits)
    rw [List.map_cons, Prod.map, recognizeFrom, recognizeFrom]
    dsimp only [id]
    generalize GraphGrammar.recognize host.unplaced rule.unplaced limits = found',
      GraphGrammar.recognize host rule limits = found at hoptions' hstatus' hsteps' ⊢
    -- the number of a rule and that of its set are put in whatever the transform is
    have hnumbered : ∀ options : List RuleOption,
        (options.map ({ · with ruleSetIndex := index, ruleNumber })).map RuleOption.unplaced
          = (options.map RuleOption.unplaced).map ({ · with ruleSetIndex := index, ruleNumber }) :=
      fun options => by rw [List.map_map, List.map_map]; rfl
    have hnext : Recognition.unplaced ⟨sofar'.options ++
          found'.options.map ({ · with ruleSetIndex := index, ruleNumber }),
          found'.status, sofar'.steps + found'.steps⟩
        = Recognition.unplaced ⟨sofar.options ++
          found.options.map ({ · with ruleSetIndex := index, ruleNumber }),
          found.status, sofar.steps + found.steps⟩ := by
      rw [Recognition.unplaced_eq_iff]
      refine ⟨?_, hstatus', by rw [hsteps, hsteps']⟩
      rw [List.map_append, List.map_append, hnumbered, hnumbered, hoptions, hoptions']
    rw [show found'.isComplete = found.isComplete from congrArg (· == .complete) hstatus']
    split
    · exact recognizeFrom_unplaced index host limits rest hnext
    · exact hnext

/-- **So does a rule set.** -/
theorem recognizeWhere_unplaced (s : RuleSet) (host : Graph) (limits : Limits)
    (enabled : Nat → Bool) :
    (s.unplaced.recognizeWhere host.unplaced limits enabled).unplaced
      = (s.recognizeWhere host limits enabled).unplaced := by
  have hrules : ∀ p : GrammarRule × Nat → Bool,
      (∀ rule ruleNumber, p (rule.unplaced, ruleNumber) = p (rule, ruleNumber)) →
      s.unplaced.rules.zipIdx.filter p
        = (s.rules.zipIdx.filter p).map (Prod.map GrammarRule.unplaced id) := by
    intro p hp
    show (s.rules.map GrammarRule.unplaced).zipIdx.filter p = _
    rw [List.zipIdx_map, List.filter_map]
    exact congrArg _ (List.filter_congr fun entry _ => hp entry.1 entry.2)
  unfold recognizeWhere
  dsimp only
  rw [hrules _ fun _ _ => rfl]
  obtain ⟨hoptions, hstatus, hsteps⟩ := Recognition.unplaced_eq_iff.1
    (recognizeFrom_unplaced s.index host limits (s.rules.zipIdx.filter _)
      (Eq.refl (Recognition.unplaced {})))
  rw [Recognition.unplaced_eq_iff]
  refine ⟨?_, hstatus, hsteps⟩
  dsimp only
  rw [← assignConfluence_unplaced, ← numberOptions_unplaced, ← assignConfluence_unplaced,
    ← numberOptions_unplaced]
  exact congrArg _ (congrArg _ hoptions)

end RuleSet

end GraphGrammar
