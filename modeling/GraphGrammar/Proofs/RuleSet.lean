import Mathlib.Algebra.GroupWithZero.Nat
import GraphGrammar.RuleSet
import GraphGrammar.Proofs.Recognition

/-!
# The options of a rule set

An option that a rule set lists is an option of one of its rules, and only the
numbers it carries tell where it stands in the list. Whatever depends on the
place of an option and not on its numbers can therefore be said of the rule
alone: `GrammarRule.Offers` is that an option was recognized for a rule in a
host, under whatever limits and whatever numbers it carries now.

`GrammarRule.Offers` is the notion that most theorems about runs use in place of a recognition.
It leaves open under which limits the option was found and in which list it stands.
-/

namespace GraphGrammar

variable {host : Graph} {rule : GrammarRule} {o : RuleOption} {limits : Limits}

/-! ## Options without their numbers

Numbers are given twice and the confluent options are entered last. An option without these three
fields is what the recognition of its rule has found. -/

/-- The option without the numbers that a list of options gives it. -/
def RuleOption.unnumbered (o : RuleOption) : RuleOption :=
  { o with ruleSetIndex := 0, ruleNumber := 0, optionNumber := 0, confluence := [] }

/-- Leaving out the numbers does not change the assignment. -/
@[simp] theorem RuleOption.toAssignment_unnumbered (o : RuleOption) :
    o.unnumbered.toAssignment = o.toAssignment := rfl

/-- Nor does it change the place of the global labels. -/
@[simp] theorem RuleOption.globalLabelStart_unnumbered (o : RuleOption) :
    o.unnumbered.globalLabelStart = o.globalLabelStart := rfl

/-- **A rule offers an option in a host**: the option was recognized for it there, and may have
been numbered since. Most theorems about runs suppose this and nothing more of an option. -/
def GrammarRule.Offers (rule : GrammarRule) (host : Graph) (o : RuleOption) : Prop :=
  ∃ limits, ∃ found ∈ (recognize host rule limits).options, found.unnumbered = o.unnumbered

/-- What is recognized is offered. -/
theorem GrammarRule.offers_of_mem_options (ho : o ∈ (recognize host rule limits).options) :
    rule.Offers host o := ⟨limits, o, ho, rfl⟩

/-- What is offered is at a match. -/
theorem GrammarRule.Offers.matches (h : rule.Offers host o) (hhost : host.WellFormed)
    (hrule : rule.Coherent) : rule.Matches host o.toAssignment ∧
      o.globalLabelStart ∈ globalLabelStarts rule host.globalLabels := by
  obtain ⟨limits, found, hfound, hsame⟩ := h
  rw [← o.toAssignment_unnumbered, ← o.globalLabelStart_unnumbered, ← hsame,
    found.toAssignment_unnumbered, found.globalLabelStart_unnumbered]
  exact matches_of_mem_options hhost hrule hfound

/-! ## The list of a rule set

The recognition of a set is described by functions of the list of rules (`consulted`, `produced`,
`statusOf`, `stepsOf`), which say what the loop comes to without its state. -/

/-- Numbering changes no length. -/
@[simp] theorem length_numberOptions (options : List RuleOption) :
    (numberOptions options).length = options.length := by
  simp [numberOptions]

/-- Entering confluent options changes no length. -/
@[simp] theorem length_assignConfluence (options : List RuleOption) :
    (assignConfluence options).length = options.length := by
  simp [assignConfluence]

/-- A numbered option is the option at its place, with the place as its number. -/
theorem getElem?_numberOptions {options : List RuleOption} {i : Nat}
    (h : (numberOptions options)[i]? = some o) :
    ∃ found, options[i]? = some found ∧ o = { found with optionNumber := i } := by
  unfold numberOptions at h
  rw [List.getElem?_map, List.getElem?_zipIdx, Option.map_map, Nat.zero_add] at h
  obtain ⟨found, hfound, rfl⟩ := Option.map_eq_some_iff.1 h
  exact ⟨found, hfound, rfl⟩

/-- A change of options that keeps to what does not depend on their numbers can be
made before they are numbered or afterwards. -/
theorem numberOptions_map {f : RuleOption → RuleOption}
    (hf : ∀ o optionNumber, f { o with optionNumber } = { f o with optionNumber })
    (options : List RuleOption) :
    numberOptions (options.map f) = (numberOptions options).map f := by
  unfold numberOptions
  rw [List.zipIdx_map, List.map_map, List.map_map]
  exact List.map_congr_left fun ⟨o, number⟩ _ => (hf o number).symm

/-- A change of options that leaves their images apart or together can be made before
they are compared or afterwards. -/
theorem assignConfluence_map {f : RuleOption → RuleOption}
    (hf : ∀ o confluence, f { o with confluence } = { f o with confluence })
    (hnumber : ∀ o, (f o).optionNumber = o.optionNumber)
    (hconfluent : ∀ a b, areConfluent (f a) (f b) = areConfluent a b)
    (options : List RuleOption) :
    assignConfluence (options.map f) = (assignConfluence options).map f := by
  unfold assignConfluence
  dsimp only
  rw [List.zipIdx_map, List.map_map, List.map_map]
  refine List.map_congr_left fun ⟨o, place⟩ _ => ?_
  refine Eq.trans ?_ (hf o _).symm
  refine congrArg (fun confluence => { f o with confluence }) ?_
  rw [List.filter_map, List.map_map]
  simp only [Function.comp_def, Prod.map, id, hconfluent, hnumber]

/-- An option gets the numbers of the options at other places that it is confluent with. -/
theorem getElem?_assignConfluence {options : List RuleOption} {i : Nat}
    (h : (assignConfluence options)[i]? = some o) :
    ∃ found confluence, options[i]? = some found ∧ o = { found with confluence } ∧
      ∀ number, number ∈ confluence ↔ ∃ j other, options[j]? = some other ∧ j ≠ i ∧
        areConfluent found other = true ∧ other.optionNumber = number := by
  unfold assignConfluence at h
  dsimp only at h
  rw [List.getElem?_map, List.getElem?_zipIdx, Option.map_map] at h
  obtain ⟨found, hfound, rfl⟩ := Option.map_eq_some_iff.1 h
  refine ⟨found, _, hfound, rfl, fun number => ?_⟩
  simp only [mem_ascending, List.mem_map, List.mem_filter, Bool.and_eq_true, bne_iff_ne,
    Prod.exists, Nat.zero_add, List.mem_zipIdx_iff_getElem?]
  constructor
  · rintro ⟨other, j, ⟨hother, hne, hconfluent⟩, hnumber⟩
    exact ⟨j, other, hother, hne, hconfluent, hnumber⟩
  · rintro ⟨j, other, hother, hne, hconfluent, hnumber⟩
    exact ⟨other, j, ⟨hother, hne, hconfluent⟩, hnumber⟩

namespace RuleSet

/-- **The rules that are recognized**: one after another, up to and including the first one whose
recognition is not complete. -/
def consulted (host : Graph) (limits : Limits) (rules : List (GrammarRule × Nat)) :
    List (GrammarRule × Nat) :=
  let completes (entry : GrammarRule × Nat) : Bool :=
    (GraphGrammar.recognize host entry.1 limits).isComplete
  rules.takeWhile completes ++ (rules.dropWhile completes).take 1

/-- Only rules that were given are asked. -/
theorem consulted_subset (host : Graph) (limits : Limits) (rules : List (GrammarRule × Nat)) :
    consulted host limits rules ⊆ rules :=
  List.append_subset.2 ⟨(List.takeWhile_prefix _).subset,
    fun _ h => (List.dropWhile_suffix _).subset (List.mem_of_mem_take h)⟩

/-- The options of rules in a row, each with the number of its rule. -/
def produced (host : Graph) (limits : Limits) (rules : List (GrammarRule × Nat)) :
    List (RuleOption × Nat) :=
  rules.flatMap fun entry =>
    (GraphGrammar.recognize host entry.1 limits).options.map fun found => (found, entry.2)

/-- The status of the first recognition that is not complete. -/
def statusOf (host : Graph) (limits : Limits) (rules : List (GrammarRule × Nat)) :
    RecognitionStatus :=
  (rules.find? fun entry => !(GraphGrammar.recognize host entry.1 limits).isComplete).elim .complete
    fun entry => (GraphGrammar.recognize host entry.1 limits).status

/-- The steps of the recognitions of rules in a row. -/
def stepsOf (host : Graph) (limits : Limits) (rules : List (GrammarRule × Nat)) : Nat :=
  (rules.map fun entry => (GraphGrammar.recognize host entry.1 limits).steps).sum

/-- **Rules are recognized one by one**, and what is found for them is put together. The rules
that are consulted are those up to the first that is not complete, and it is among them. The
induction is on the rules still to come, with what was found so far as the parameter. -/
theorem recognizeFrom_eq {index : Nat} (rules : List (GrammarRule × Nat)) {sofar : Recognition}
    (hsofar : sofar.status = .complete) :
    recognizeFrom index host limits rules sofar =
      { options := sofar.options ++ (produced host limits (consulted host limits rules)).map
          fun found => { found.1 with ruleSetIndex := index, ruleNumber := found.2 }
        status := statusOf host limits rules
        steps := sofar.steps + stepsOf host limits (consulted host limits rules) } := by
  induction rules generalizing sofar with
  | nil =>
    obtain ⟨options, status, steps⟩ := sofar
    cases hsofar
    simp [recognizeFrom, consulted, produced, statusOf, stepsOf]
  | cons entry rest ih =>
    obtain ⟨rule, ruleNumber⟩ := entry
    rw [recognizeFrom]
    dsimp only
    split
    · -- the rule is complete, and the others follow
      rename_i hcomplete
      have hstatus : (GraphGrammar.recognize host rule limits).status = .complete :=
        beq_iff_eq.1 hcomplete
      rw [ih]
      · simp [consulted, produced, statusOf, stepsOf, hcomplete, Nat.add_assoc, Function.comp_def]
      · exact hstatus
    · rename_i hincomplete
      simp [consulted, produced, statusOf, stepsOf, hincomplete, Function.comp_def]

variable {s : RuleSet} {enabled : Nat → Bool}

/-- **An option of a rule set is offered by the enabled rule it is numbered
with**, and it is numbered with its place. -/
theorem offers_of_recognizeWhere {i : Nat}
    (h : (s.recognizeWhere host limits enabled).options[i]? = some o) :
    o.optionNumber = i ∧ enabled o.ruleNumber = true ∧
      ∃ rule, s.rule? o.ruleNumber = some rule ∧ rule.Offers host o := by
  obtain ⟨numbered, _, hnumbered, rfl, -⟩ := getElem?_assignConfluence h
  obtain ⟨listed, hlisted, rfl⟩ := getElem?_numberOptions hnumbered
  rw [recognizeFrom_eq _ rfl] at hlisted
  obtain ⟨found, hfound, rfl⟩ := List.mem_map.1 (List.mem_of_getElem? hlisted)
  obtain ⟨entry, hentry, hfound⟩ := List.mem_flatMap.1 hfound
  obtain ⟨single, hsingle, rfl⟩ := List.mem_map.1 hfound
  obtain ⟨hentry, henabled⟩ := List.mem_filter.1 (consulted_subset _ _ _ hentry)
  exact ⟨rfl, henabled, entry.1, List.mem_zipIdx_iff_getElem?.1 hentry, limits,
    single, hsingle, rfl⟩

end RuleSet

end GraphGrammar
