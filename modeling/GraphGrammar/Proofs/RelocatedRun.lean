import GraphGrammar.Proofs.RelocatedApplication
import GraphGrammar.Proofs.RelocatedRecognition
import GraphGrammar.Proofs.Replay

/-!
# Runs do not look at slots

Two runs that begin with a graph and the same graph in other slots go through the same
cycles, apply the same options and end for the same reason, if the chooser makes its
choice without a look at the slots (`runCycles_relocated`). A cycle offers the same
options in the same order, so the places that are chosen mean the same in both runs;
applying an option leads to two such graphs again; and what is counted and put down on
the way is the same up to the keys in it.

Choosers that are scripted have made their choices before they see anything
(`Chooser.scripted_blind`).

What is recorded in a recipe are keys, and those recorded before the runs began are the keys of a
graph that may be long gone. So the past of two candidates is the same as it stands, and only
what is recorded since is translated.
-/

namespace GraphGrammar

/-! ## Candidates and reports in other slots

Keys stand in recipes, in diagnostics and in the reports of applications. Each of these is
translated where it stands. -/

/-- A step with other keys in it. -/
def RecipeStep.rekeyed (step : RecipeStep) (f : (κ : Kind) → Key κ → Key κ) : RecipeStep :=
  { step with
    nodes := step.nodes.map (f .node)
    arcs := step.arcs.map (f .arc)
    hyperarcs := step.hyperarcs.map (f .hyperarc) }

/-- The report of a run with other keys in it. -/
def RunReport.rekeyed (report : RunReport) (f : (κ : Kind) → Key κ → Key κ) : RunReport :=
  { report with diagnostics := report.diagnostics.map (·.rekeyed f) }

/-- A step records the rule and the images of the option, and these are translated. -/
theorem RecipeStep.of_rekeyed (rule : GrammarRule) (o : RuleOption)
    (f : (κ : Kind) → Key κ → Key κ) :
    RecipeStep.of rule (o.rekeyed f) = (RecipeStep.of rule o).rekeyed f := by
  unfold RecipeStep.of
  rw [RuleOption.toAssignment_rekeyed, Assignment.nodeImages_rekeyed, Assignment.arcImages_rekeyed,
    Assignment.hyperarcImages_rekeyed]
  rfl

/-- Two candidates of the same past. The graph of the second is that of the first in
other slots, and so are the steps that were recorded since. -/
structure Candidate.Relocated (σ : Relocation) (past : List RecipeStep) (c c' : Candidate) :
    Prop where
  graph : c.graph.Relocated σ c'.graph
  recipe : ∃ steps, c.recipe = past ++ steps ∧ c'.recipe = past ++ steps.map (·.rekeyed σ.keys)
  generation : c'.generation = c.generation
  performance : c'.performance = c.performance

/-- A chooser that makes the same choice for a candidate and options in other
slots. -/
def Chooser.Blind {τ : Type} (chooser : Chooser τ) (σ : Relocation) : Prop :=
  ∀ state options past c c', Candidate.Relocated σ past c c' →
    chooser.choose state (options.map (·.rekeyed σ.keys)) c' = chooser.choose state options c

/-- A script was written before the run and is read whatever is shown. -/
theorem Chooser.scripted_blind (σ : Relocation) : Chooser.scripted.Blind σ :=
  fun _ _ _ _ _ _ => rfl

namespace RunState

/-- Two runs under way that have gone through the same cycles. -/
structure Relocated (σ : Relocation) (past : List RecipeStep) (s s' : RunState) : Prop where
  candidate : s.candidate.Relocated σ past s'.candidate
  report : s'.report = s.report.rekeyed σ.keys
  applications : s'.applications = s.applications

namespace Relocated

variable {σ : Relocation} {past : List RecipeStep} {s s' : RunState} (h : s.Relocated σ past s')
  (rules : RuleSet)
include h

/-- Which rules are enabled depends on how often each was applied, and this is the same in both
runs. -/
theorem enabled : s'.enabled rules = s.enabled rules := by
  funext ruleNumber
  unfold RunState.enabled applicationsOf
  rw [h.applications]

/-- What is noted down for one run is noted down for the other in its own keys. -/
theorem diagnose (diagnostics : List Diagnostic) :
    (s.diagnose diagnostics).Relocated σ past
      (s'.diagnose (diagnostics.map (·.rekeyed σ.keys))) := by
  refine ⟨h.candidate, ?_, h.applications⟩
  unfold RunState.diagnose RunReport.rekeyed
  dsimp only
  rw [h.report, List.map_append]
  rfl

/-- The counts go up alike, and the recipe grows by steps that correspond. Whether the limit of
the rule has been reached is told by the counts, so it is reported in both runs or in neither. -/
theorem recordApplication (rule : GrammarRule) (o : RuleOption) :
    (s.recordApplication rules rule o).Relocated σ past
      (s'.recordApplication rules rule (o.rekeyed σ.keys)) := by
  obtain ⟨steps, hsteps, hsteps'⟩ := h.candidate.recipe
  have hcounted : Relocated σ past
      { candidate := { s.candidate with recipe := s.candidate.recipe ++ [.of rule o] }
        report := { s.report with applied := s.report.applied + 1 }
        applications := s.applications.modify o.ruleNumber (· + 1) }
      { candidate :=
          { s'.candidate with recipe := s'.candidate.recipe ++ [.of rule (o.rekeyed σ.keys)] }
        report := { s'.report with applied := s'.report.applied + 1 }
        applications := s'.applications.modify o.ruleNumber (· + 1) } := by
    refine ⟨⟨h.candidate.graph, ⟨steps ++ [.of rule o], ?_, ?_⟩, h.candidate.generation,
      h.candidate.performance⟩, ?_, ?_⟩
    · rw [hsteps, List.append_assoc]
    · rw [hsteps', List.append_assoc, List.map_append, RecipeStep.of_rekeyed]
      rfl
    · rw [h.report]
      rfl
    · rw [h.applications]
  unfold RunState.recordApplication
  dsimp only
  rw [show (o.rekeyed σ.keys).ruleNumber = o.ruleNumber from rfl]
  have hsame : ∀ {t t' : RunState}, t.Relocated σ past t' →
      t'.applicationsOf o.ruleNumber = t.applicationsOf o.ruleNumber := by
    intro t t' ht
    rw [applicationsOf, ht.applications, applicationsOf]
  rw [hsame hcounted]
  split
  · exact hcounted.diagnose [.ruleLimitReached rules.index o.ruleNumber]
  · exact hcounted

/-- **A chosen option meets the same fate in both runs.** It conflicts with an option that was
applied before it, or its rule is applied: in both runs or in neither, and with results that
correspond. -/
theorem applyChosen (earlier : List RuleOption) (o : RuleOption) :
    (RunState.applyChosen rules (s, earlier) o).1.Relocated σ past
        (RunState.applyChosen rules (s', earlier.map (·.rekeyed σ.keys)) (o.rekeyed σ.keys)).1 ∧
      (RunState.applyChosen rules (s', earlier.map (·.rekeyed σ.keys)) (o.rekeyed σ.keys)).2
        = (RunState.applyChosen rules (s, earlier) o).2.map (·.rekeyed σ.keys) := by
  -- distinct keys stay distinct, so the same options conflict
  have hconflict : (earlier.map (·.rekeyed σ.keys)).any (!areConfluent · (o.rekeyed σ.keys))
      = earlier.any (!areConfluent · o) := by
    rw [List.any_map]
    simp only [Function.comp_def, areConfluent_rekeyed]
  unfold RunState.applyChosen
  dsimp only
  rw [hconflict, show (o.rekeyed σ.keys).ruleNumber = o.ruleNumber from rfl]
  split
  · exact ⟨h.diagnose [.conflictSkipped o.optionNumber], rfl⟩
  cases rules.rule? o.ruleNumber with
  | none => exact ⟨h, rfl⟩
  | some rule =>
    dsimp only
    obtain ⟨hhost, hresult⟩ := apply_relocated h.candidate.graph rule o
    have hnext : Relocated σ past
        { s with candidate :=
          { s.candidate with graph := (apply s.candidate.graph rule o).host } }
        { s' with candidate :=
          { s'.candidate with
            graph := (apply s'.candidate.graph rule (o.rekeyed σ.keys)).host } } :=
      ⟨{ h.candidate with graph := hhost }, h.report, h.applications⟩
    generalize apply s.candidate.graph rule o = done,
      apply s'.candidate.graph rule (o.rekeyed σ.keys) = done' at hresult hnext ⊢
    obtain ⟨host, result⟩ := done
    obtain ⟨host', result'⟩ := done'
    cases hresult with
    | error hcause =>
      dsimp only
      rw [hcause]
      exact ⟨hnext.diagnose [.optionNotApplied o.optionNumber _], rfl⟩
    | ok hreport =>
      dsimp only
      rw [hreport, List.map_append]
      exact ⟨(hnext.diagnose _).recordApplication rules rule o, rfl⟩

/-- The options chosen in one cycle are applied one after the other. Each is compared with those
applied before it in the same cycle, so these are carried along. -/
theorem applyAll (earlier chosen : List RuleOption) :
    (chosen.foldl (RunState.applyChosen rules) (s, earlier)).1.Relocated σ past
      ((chosen.map (·.rekeyed σ.keys)).foldl (RunState.applyChosen rules)
        (s', earlier.map (·.rekeyed σ.keys))).1 := by
  induction chosen generalizing s s' earlier with
  | nil => exact h
  | cons o rest ih =>
    obtain ⟨happlied, hearlier⟩ := h.applyChosen rules earlier o
    rw [List.map_cons, List.foldl_cons, List.foldl_cons]
    rw [show RunState.applyChosen rules (s', earlier.map (·.rekeyed σ.keys)) (o.rekeyed σ.keys)
      = (_, (RunState.applyChosen rules (s, earlier) o).2.map (·.rekeyed σ.keys))
      from Prod.ext rfl hearlier]
    exact ih happlied _

theorem endCycle : s.endCycle.Relocated σ past s'.endCycle := by
  refine ⟨{ h.candidate with generation := ?_ }, ?_, h.applications⟩
  · exact congrArg (· + 1) h.candidate.generation
  · show { s'.report with cycles := s'.report.cycles + 1 } = _
    rw [h.report]
    rfl

end Relocated

end RunState

/-! ## Cycles

The recursion on the cycles that are left is followed in both runs at once, with the state of the
chooser the same in both. -/

section

variable {τ : Type} {σ : Relocation} {past : List RecipeStep} {s s' : RunState}

/-- Two runs that have ended alike. -/
structure Run.Relocated (σ : Relocation) (past : List RecipeStep) (done done' : Run τ) : Prop where
  candidate : done.candidate.Relocated σ past done'.candidate
  chooser : done'.chooser = done.chooser
  result : Agree (fun failure failure' => failure' = failure)
    (fun report report' => report' = report.rekeyed σ.keys) done.result done'.result

theorem RunState.Relocated.finish (h : s.Relocated σ past s') (asked : τ) (reason : StopReason) :
    (s.finish asked reason).Relocated σ past (s'.finish asked reason) := by
  refine ⟨h.candidate, rfl, .ok ?_⟩
  rw [h.report]
  rfl

/-- What is shown to the chooser in either run. -/
theorem RunState.Relocated.recognized (h : s.Relocated σ past s') (rules : RuleSet)
    (chooser : Chooser τ) (config : RunConfig) (asked : τ) :
    s'.recognized rules chooser config asked
      = (s.recognized rules chooser config asked).rekeyed σ.keys := by
  unfold RunState.recognized
  rw [h.enabled rules]
  exact RuleSet.recognizeWhere_relocated h.candidate.graph rules _ _

/-- **Two runs that begin alike end alike**, by induction on the cycles that are left. Where a
run ends is decided by the status of the recognition, by the number of options and by the answer
of the chooser, none of which has to do with slots. -/
theorem runCycles_relocated {chooser : Chooser τ} (hblind : chooser.Blind σ) (rules : RuleSet)
    (config : RunConfig) (n : Nat) : ∀ (s s' : RunState) (asked : τ), s.Relocated σ past s' →
      (runCycles rules chooser config n s asked).Relocated σ past
        (runCycles rules chooser config n s' asked) := by
  induction n with
  | zero => exact fun s s' asked h => h.finish asked .maxCycles
  | succ n ih =>
    intro s s' asked h
    have hrecognized := h.recognized rules chooser config asked
    have hstatus : (s'.recognized rules chooser config asked).status
        = (s.recognized rules chooser config asked).status := by rw [hrecognized]; rfl
    by_cases hcomplete : (s.recognized rules chooser config asked).status = .complete
    case neg =>
      rw [runCycles_of_incomplete n hcomplete, runCycles_of_incomplete n (hstatus ▸ hcomplete),
        hstatus]
      split
      · exact h.finish asked .cancelled
      · have hcycle : s'.report.cycles = s.report.cycles := by rw [h.report]; rfl
        dsimp only
        rw [hcycle]
        exact (h.diagnose [.recognitionIncomplete _]).finish asked .budgetExhausted
    case pos =>
      rw [runCycles_of_complete n hcomplete, runCycles_of_complete n (hstatus.trans hcomplete),
        hrecognized]
      generalize (s.recognized rules chooser config asked) = offered
      -- the chooser does not look at keys, so it answers alike
      have hanswer := hblind asked offered.options past _ _ h.candidate
      unfold Recognition.rekeyed
      dsimp only
      rw [hanswer, List.isEmpty_map, List.length_map]
      generalize chooser.choose asked offered.options s.candidate = answer
      split
      · exact h.finish asked .noOptions
      split
      · exact h.finish answer.2 .chooserStopped
      cases answer.1.find? (offered.options.length ≤ ·) with
      | some index => exact ⟨h.candidate, rfl, .error rfl⟩
      | none =>
        have hchosen : ∀ places : List Nat,
            places.filterMap ((offered.options.map (·.rekeyed σ.keys))[·]?)
              = (places.filterMap (offered.options[·]?)).map (·.rekeyed σ.keys) := by
          intro places
          rw [List.map_filterMap]
          exact List.filterMap_congr fun place _ => List.getElem?_map
        dsimp only
        rw [hchosen]
        exact ih _ _ answer.2 (h.applyAll rules [] _).endCycle

/-- **Runs that begin with a graph and with the graph in other slots end alike.** -/
theorem run_relocated {chooser : Chooser τ} (hblind : chooser.Blind σ) {c c' : Candidate}
    (h : c.Relocated σ past c') (rules : RuleSet) (state : τ) (config : RunConfig) :
    (run c rules chooser state config).Relocated σ past (run c' rules chooser state config) := by
  have hstart : RunState.Relocated σ past
      { candidate := c, applications := List.replicate rules.size 0 }
      { candidate := c', applications := List.replicate rules.size 0 } := ⟨h, rfl, rfl⟩
  exact runCycles_relocated hblind rules config config.maxCycles _ _ state hstart

end

end GraphGrammar
