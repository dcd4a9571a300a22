import GraphGrammar.Proofs.Persistence
import GraphGrammar.Proofs.RuleSet

/-!
# Rule sets, rule by rule

An option of a rule set is numbered twice, among the options of its rule when it is found and then
across the set. The rules after one that is not complete are not looked at, and a run leaves out
those that have reached their limit, so the list of a set need not have options of every rule.

`RuleSet.RuleByRule` says what the list is in terms of the recognition of each rule by itself. An
option has the number of its place, that of its rule and that of the set, and is otherwise as it was
found. What it is confluent with is said by places too, which are those of the other options that it
has no image in common with, whichever rules these are of.

Which rules are asked, and under which limits, are parameters of the theorem. A run asks the
rules that have not reached their limit, with the limits of its configuration; whatever is said
of a rule set here holds of what a run recognizes.
-/

namespace GraphGrammar

namespace RuleSet

variable {options : List RuleOption} {i j : Nat} {o other : RuleOption}

/-! ## Confluence by place

An option of the whole list is told which others it is confluent with, whatever rules they are
of. As it is numbered by its place, its own number and the numbers it is told are places of the
same list. -/

/-- The options know by their places which others they are confluent with. -/
def ConfluentByPlace (options : List RuleOption) : Prop :=
  ∀ (i : Nat) (o : RuleOption), options[i]? = some o → ∀ j, j ∈ o.confluence ↔
    j ≠ i ∧ ∃ other, options[j]? = some other ∧ areConfluent o other = true

/-- **To be confluent is mutual**, whichever rules the options are of. -/
theorem ConfluentByPlace.mem_comm (h : ConfluentByPlace options) (ho : options[i]? = some o)
    (hother : options[j]? = some other) : j ∈ o.confluence ↔ i ∈ other.confluence := by
  have half : ∀ {i j : Nat} {o other : RuleOption}, options[i]? = some o →
      options[j]? = some other → j ∈ o.confluence → i ∈ other.confluence := by
    intro i j o other ho hother hj
    obtain ⟨hne, found, hfound, hconfluent⟩ := (h i o ho j).1 hj
    cases hother.symm.trans hfound
    exact (h j other hother i).2 ⟨hne.symm, o, ho, areConfluent_symm hconfluent⟩
  exact ⟨half ho hother, half hother ho⟩

/-- No option is confluent with itself. -/
theorem ConfluentByPlace.not_mem_self (h : ConfluentByPlace options) (ho : options[i]? = some o) :
    i ∉ o.confluence := fun hi => ((h i o ho i).1 hi).1 rfl

/-- **Options that are numbered by their places know the others by these.** -/
theorem confluentByPlace_assignConfluence (options : List RuleOption) :
    ConfluentByPlace (assignConfluence (numberOptions options)) := by
  intro i o ho j
  obtain ⟨single, confluence, -, rfl, hmem⟩ := getElem?_assignConfluence ho
  rw [hmem]
  constructor
  · rintro ⟨j, other, hother, hne, hconfluent, rfl⟩
    obtain ⟨_, -, rfl⟩ := getElem?_numberOptions hother
    have hlt : j < (assignConfluence (numberOptions options)).length := by
      rw [length_assignConfluence]
      exact (List.getElem?_eq_some_iff.1 hother).1
    obtain ⟨found, hfound⟩ : ∃ found, (assignConfluence (numberOptions options))[j]? = some found :=
      ⟨_, List.getElem?_eq_getElem hlt⟩
    obtain ⟨_, _, hsame, rfl, -⟩ := getElem?_assignConfluence hfound
    cases hother.symm.trans hsame
    exact ⟨hne, _, hfound, hconfluent⟩
  · rintro ⟨hne, other, hother, hconfluent⟩
    obtain ⟨numbered, _, hnumbered, rfl, -⟩ := getElem?_assignConfluence hother
    obtain ⟨_, -, rfl⟩ := getElem?_numberOptions hnumbered
    exact ⟨j, _, hnumbered, hne, hconfluent, rfl⟩

/-! ## The list of a set

The recognition of a set carries three things from rule to rule: the options so far, the steps
and the status. The first recognition that is not complete ends it. -/

/-- **What is recognized, told rule by rule.** The rules are given with their numbers. The
confluent options are the one field in which an option knows of others. -/
structure RuleByRule (index : Nat) (host : Graph) (limits : Limits)
    (rules : List (GrammarRule × Nat)) (found : Recognition) : Prop where
  status : found.status = statusOf host limits rules
  steps : found.steps = stepsOf host limits (consulted host limits rules)
  length : found.options.length = (produced host limits (consulted host limits rules)).length
  /-- An option is as its rule has it, but for its numbers and for what it is confluent with. -/
  options : ∀ (i : Nat) (o : RuleOption), found.options[i]? = some o → ∃ single ruleNumber,
    (produced host limits (consulted host limits rules))[i]? = some (single, ruleNumber) ∧
      o = { single with
        ruleSetIndex := index, ruleNumber, optionNumber := i, confluence := o.confluence }
  confluence : ConfluentByPlace found.options
  symmetric : ∀ (i j : Nat) (o other : RuleOption), found.options[i]? = some o →
    found.options[j]? = some other → (j ∈ o.confluence ↔ i ∈ other.confluence)
  irreflexive : ∀ (i : Nat) (o : RuleOption), found.options[i]? = some o → i ∉ o.confluence

/-- The rules that are enabled are recognized one by one. -/
theorem ruleByRule_recognizeWhere (s : RuleSet) (host : Graph) (limits : Limits)
    (enabled : Nat → Bool) :
    RuleByRule s.index host limits (s.rules.zipIdx.filter fun entry => enabled entry.2)
      (s.recognizeWhere host limits enabled) := by
  have hplaces := confluentByPlace_assignConfluence
    (recognizeFrom s.index host limits (s.rules.zipIdx.filter
      fun entry => enabled entry.2) {}).options
  refine ⟨?_, ?_, ?_, fun i o ho => ?_, hplaces, fun _ _ _ _ => hplaces.mem_comm,
    fun _ _ => hplaces.not_mem_self⟩
  · show (recognizeFrom _ _ _ _ _).status = _
    rw [recognizeFrom_eq _ rfl]
  · show (recognizeFrom _ _ _ _ _).steps = _
    rw [recognizeFrom_eq _ rfl, Nat.zero_add]
  · show (assignConfluence (numberOptions (recognizeFrom _ _ _ _ _).options)).length = _
    rw [length_assignConfluence, length_numberOptions, recognizeFrom_eq _ rfl, List.nil_append,
      List.length_map]
  · obtain ⟨numbered, confluence, hnumbered, rfl, -⟩ := getElem?_assignConfluence ho
    obtain ⟨listed, hlisted, rfl⟩ := getElem?_numberOptions hnumbered
    rw [recognizeFrom_eq _ rfl, List.nil_append, List.getElem?_map] at hlisted
    obtain ⟨found, hfound, rfl⟩ := Option.map_eq_some_iff.1 hlisted
    exact ⟨found.1, found.2, hfound, rfl⟩

/-- **A rule set is recognized rule by rule.** Its options are those of its rules one after the
other, up to and including the first rule whose recognition is not complete, whose status is that of
the whole and without which the whole is complete; the steps are the sum of theirs. An option has
the number of its place and of its rule, and has the options at other places for confluent that it
shares no image with. So being confluent is mutual, and no option is confluent with itself. -/
theorem recognize_rule_by_rule (s : RuleSet) (host : Graph) (limits : Limits) :
    RuleByRule s.index host limits s.rules.zipIdx (s.recognize host limits) := by
  have h := s.ruleByRule_recognizeWhere host limits fun _ => true
  rwa [List.filter_true] at h

/-- Numbers go on from rule to rule, and a rule that runs out of steps is the last one. -/
example :
    let s : RuleSet := { rules := [.removeEdge, .removeEdge], index := 3 }
    let found := s.recognize (.edge true) { maxOptions := some 1 }
    let cut := s.recognize (.edge true) { maxSteps := some 2 }
    found.status = .complete ∧ cut.status = .budgetExhausted ∧ cut.steps = 3 ∧
      found.options.map (fun o => (o.ruleSetIndex, o.ruleNumber, o.optionNumber))
        = [(3, 0, 0), (3, 1, 1)] := by
  decide +kernel

end RuleSet

end GraphGrammar
