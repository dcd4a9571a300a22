import GraphGrammar.Proofs.Cancellation
import GraphGrammar.Proofs.Run

/-!
# A recipe replays

A run that applies one option in each cycle can be repeated from its recipe
alone. The steps it recorded say which option was applied in each cycle, by its
number among the options offered, and a chooser that prescribes these numbers
leads to the same candidate and the same report.

Two facts carry the induction over the cycles. An option that was just recognized
is applied, so each cycle records exactly one step, and that step has the number
of the place that was chosen (`RunState.applyChosen_offered`). And where the
prescribed choices are used up the run ends for the reason it ended for before:
the prescription then answers nothing, as the chooser did, unless the run ended
before it came to ask.

A step records the option by its number, and numbers are given anew in each cycle. So the recipe
is of use only together with the candidate that the run began with, and the theorem is about two
runs from one candidate.
-/

namespace GraphGrammar

variable {σ : Type} {rules : RuleSet} {chooser : Chooser σ} {config : RunConfig} {s : RunState}
  {asked : σ} {script : List (List Nat)}

/-- The choices that repeat the steps of a recipe, one in each cycle. A place is an option
number, because options are numbered by their places. -/
def replayScript (steps : List RecipeStep) : List (List Nat) :=
  steps.map fun step => [step.optionNumber]

namespace RunState

/-- What the prescription is offered is what the chooser was offered, unless the
chooser had the run cancelled. -/
theorem recognized_scripted
    (h : (s.recognized rules chooser config asked).status = .cancelled →
      config.limits.cancelled = true) :
    s.recognized rules .scripted config script = s.recognized rules chooser config asked := by
  unfold recognized at h ⊢
  by_cases hconfig : config.limits.cancelled = true
  · simp only [hconfig, Bool.true_or]
  · have hsame : ({ config.limits with
        cancelled := config.limits.cancelled || Chooser.scripted.cancels script } : Limits)
        = Limits.uncancelled { config.limits with
          cancelled := config.limits.cancelled || chooser.cancels asked } := by
      rw [Bool.not_eq_true] at hconfig
      rw [hconfig]
      rfl
    rw [hsame]
    exact RuleSet.recognizeWhere_of_not_cancelled _ _ fun hstatus => hconfig (h hstatus)

/-- **An option that was just recognized is applied**, and the step that is put
down for it has the number of its place. -/
theorem applyChosen_offered (hgraph : s.candidate.graph.WellFormed)
    (hbuilt : ∀ rule ∈ rules.rules, rule.Built) {place : Nat} {o : RuleOption}
    (ho : (s.recognized rules chooser config asked).options[place]? = some o) :
    ∃ step, step.optionNumber = place ∧
      (applyChosen rules (s, []) o).1.candidate.recipe = s.candidate.recipe ++ [step] ∧
      (applyChosen rules (s, []) o).1.candidate.graph.WellFormed := by
  obtain ⟨hnumber, -, rule, hrule, hoffers⟩ := RuleSet.offers_of_recognizeWhere ho
  have hcoherent := (hbuilt rule (List.mem_of_getElem? hrule)).coherent
  have hoccurs := (hoffers.matches hgraph hcoherent).1.occurs
  obtain ⟨d, done, _, happly, -⟩ := apply_of_fits hgraph hcoherent hoccurs.distinct
    (RuleOption.fits_of_occurs hoccurs)
  obtain ⟨hdealt, hwellFormed⟩ : Dealt rules place o (s, []) (applyChosen rules (s, []) o) ∧
      (applyChosen rules (s, []) o).1.candidate.graph.WellFormed :=
    applyChosen_dealt hgraph hnumber hrule hcoherent hoccurs.shaped hoccurs.distinct
  generalize applyChosen rules (s, []) o = after at hdealt hwellFormed ⊢
  cases hdealt with
  | skipped hconflict =>
    obtain ⟨_, hmem, -⟩ := hconflict
    exact absurd hmem List.not_mem_nil
  | refused _ hrule' hrefused _ =>
    cases hrule.symm.trans hrule'
    exact nomatch congrArg Application.result (happly.symm.trans hrefused)
  | @applied _ _ _ rule' _ _ _ _ _ hcandidate =>
    exact ⟨.of rule' o, hnumber, congrArg Candidate.recipe hcandidate, hwellFormed⟩

end RunState

/-- What a run does once its options are known. -/
theorem runCycles_of_complete (n : Nat)
    (hstatus : (s.recognized rules chooser config asked).status = .complete) :
    runCycles rules chooser config (n + 1) s asked =
      let options := (s.recognized rules chooser config asked).options
      let answer := chooser.choose asked options s.candidate
      if options.isEmpty then s.finish asked .noOptions
      else if answer.1.isEmpty then s.finish answer.2 .chooserStopped
      else
        match answer.1.find? (options.length ≤ ·) with
        | some index => ⟨s.candidate, answer.2, .fail (.invalidChoice index options.length)⟩
        | none =>
          let chosen := (if config.applyAllChosen then answer.1 else answer.1.take 1).filterMap
            (options[·]?)
          runCycles rules chooser config n
            (chosen.foldl (RunState.applyChosen rules) (s, [])).1.endCycle answer.2 := by
  have hrecognized : rules.recognizeWhere s.candidate.graph
      { config.limits with cancelled := config.limits.cancelled || chooser.cancels asked }
      (s.enabled rules) = s.recognized rules chooser config asked := rfl
  rw [runCycles]
  dsimp only
  rewrite [hrecognized, hstatus]
  rfl

/-- What a run does if it learns only a part of the options. -/
theorem runCycles_of_incomplete (n : Nat)
    (hstatus : (s.recognized rules chooser config asked).status ≠ .complete) :
    runCycles rules chooser config (n + 1) s asked =
      if (s.recognized rules chooser config asked).status = .cancelled then
        s.finish asked .cancelled
      else
        let cycle := s.report.cycles
        (s.diagnose [.recognitionIncomplete s!"step budget exhausted in cycle {cycle}"]).finish
          asked .budgetExhausted := by
  have hrecognized : rules.recognizeWhere s.candidate.graph
      { config.limits with cancelled := config.limits.cancelled || chooser.cancels asked }
      (s.enabled rules) = s.recognized rules chooser config asked := rfl
  rw [runCycles]
  dsimp only
  rw [hrecognized]
  cases h : (s.recognized rules chooser config asked).status with
  | complete => exact absurd h hstatus
  | budgetExhausted => rfl
  | cancelled => rfl

/-- A cycle in which one option is applied, the first of those that were chosen. -/
theorem runCycles_of_choice (n : Nat) (hsingle : config.applyAllChosen = false)
    (hstatus : (s.recognized rules chooser config asked).status = .complete) {place : Nat}
    {others : List Nat} {answered : σ} {o : RuleOption}
    (hchoose : chooser.choose asked (s.recognized rules chooser config asked).options s.candidate
      = (place :: others, answered))
    (hvalid : (place :: others).find?
      ((s.recognized rules chooser config asked).options.length ≤ ·) = none)
    (ho : (s.recognized rules chooser config asked).options[place]? = some o) :
    runCycles rules chooser config (n + 1) s asked
      = runCycles rules chooser config n (RunState.applyChosen rules (s, []) o).1.endCycle
          answered := by
  have hsome : ¬ (s.recognized rules chooser config asked).options.isEmpty = true := by
    intro hempty
    rw [List.isEmpty_iff.1 hempty] at ho
    exact nomatch ho
  have hchosen : ((place :: others).take 1).filterMap
      ((s.recognized rules chooser config asked).options[·]?) = [o] := by simp [ho]
  rw [runCycles_of_complete n hstatus]
  dsimp only
  rw [hchoose, if_neg hsome, if_neg (show ¬ (place :: others).isEmpty = true from nofun), hvalid]
  dsimp only
  rw [hsingle, if_neg Bool.false_ne_true, hchosen]
  rfl

/-- What became of a run under way is repeated by the steps that it recorded since. It is stated
for what the run does from a state on, so that the cycles can be taken off at the front one by
one. -/
def RunState.Repeated (rules : RuleSet) (config : RunConfig) (n : Nat) (s : RunState)
    (report : RunReport) (done : Run σ) : Prop :=
  ∃ steps, done.candidate.recipe = s.candidate.recipe ++ steps ∧
    runCycles rules .scripted config n s (replayScript steps)
      = ⟨done.candidate, [], .ok report⟩

/-- A run that ends now is repeated by a prescription that is used up, if that ends for
the same reason. -/
theorem repeated_of_finish {n : Nat} {report : RunReport} {reason : StopReason} {answered : σ}
    (hresult : (s.finish answered reason).result = .ok report)
    (hscripted : runCycles rules .scripted config n s [] = s.finish [] reason) :
    s.Repeated rules config n report (s.finish answered reason) := by
  cases hresult
  exact ⟨[], (List.append_nil _).symm, hscripted⟩

/-- A run that ends before the chooser is asked is repeated. -/
theorem repeated_of_incomplete {n : Nat} {report : RunReport}
    (hquiet : report.stopReason = .cancelled → config.limits.cancelled = true)
    (hstatus : (s.recognized rules chooser config asked).status ≠ .complete)
    (hresult : (runCycles rules chooser config (n + 1) s asked).result = .ok report) :
    s.Repeated rules config (n + 1) report (runCycles rules chooser config (n + 1) s asked) := by
  rw [runCycles_of_incomplete n hstatus] at hresult ⊢
  have hsame : s.recognized rules .scripted config (replayScript [])
      = s.recognized rules chooser config asked := by
    refine RunState.recognized_scripted fun hcancelled => ?_
    rw [if_pos hcancelled] at hresult
    cases hresult
    exact hquiet rfl
  refine ⟨[], ?_, ?_⟩
  · split <;> exact (List.append_nil _).symm
  · rw [runCycles_of_incomplete n (hsame.symm ▸ hstatus), hsame]
    split at hresult <;> cases hresult
    · rename_i hcancelled
      simp only [if_pos hcancelled]
      rfl
    · rename_i hexhausted
      simp only [if_neg hexhausted]
      rfl

/-- A cycle in which an option is applied is repeated, and then what follows on it. The
prescription has the number of the option in front, so the cycle is offered the same options and
chooses the same one; and after it the prescription for the rest is left. -/
theorem repeated_of_choice {n : Nat} {report : RunReport} {done : Run σ} {place : Nat}
    {o : RuleOption} (hgraph : s.candidate.graph.WellFormed)
    (hbuilt : ∀ rule ∈ rules.rules, rule.Built) (hsingle : config.applyAllChosen = false)
    (hstatus : (s.recognized rules chooser config asked).status = .complete)
    (ho : (s.recognized rules chooser config asked).options[place]? = some o)
    (hrest : (RunState.applyChosen rules (s, []) o).1.endCycle.Repeated rules config
      n report done) :
    s.Repeated rules config (n + 1) report done := by
  obtain ⟨steps, hsteps, hreplay⟩ := hrest
  obtain ⟨step, hnumber, hrecipe, -⟩ := RunState.applyChosen_offered hgraph hbuilt ho
  have hsame : s.recognized rules .scripted config (replayScript (step :: steps))
      = s.recognized rules chooser config asked :=
    RunState.recognized_scripted fun h => nomatch hstatus.symm.trans h
  have hprescribed : Chooser.scripted.choose (replayScript (step :: steps))
      (s.recognized rules .scripted config (replayScript (step :: steps))).options
      s.candidate = ([place], replayScript steps) := by rw [← hnumber]; rfl
  have hvalid : [place].find?
      ((s.recognized rules chooser config asked).options.length ≤ ·) = none := by
    simpa using (List.getElem?_eq_some_iff.1 ho).1
  refine ⟨step :: steps, ?_, ?_⟩
  · rw [hsteps]
    show (RunState.applyChosen rules (s, []) o).1.candidate.recipe ++ steps = _
    rw [hrecipe, List.append_assoc]
    rfl
  · rw [runCycles_of_choice n hsingle (hsame ▸ hstatus) hprescribed
      (by rw [hsame]; exact hvalid) (by rw [hsame]; exact ho)]
    exact hreplay

/-- **The cycles of a run are repeated by the steps they recorded**, if no more than one option
is applied in a cycle and the run was not cancelled on the way. The induction is on the cycles
that are left. In each of them the run either ends or goes on after one application, and both are
repeated. -/
theorem runCycles_replays (hbuilt : ∀ rule ∈ rules.rules, rule.Built)
    (hsingle : config.applyAllChosen = false) {report : RunReport}
    (hquiet : report.stopReason = .cancelled → config.limits.cancelled = true) (n : Nat) :
    ∀ (s : RunState) (asked : σ), s.candidate.graph.WellFormed →
      (runCycles rules chooser config n s asked).result = .ok report →
      s.Repeated rules config n report (runCycles rules chooser config n s asked) := by
  induction n with
  | zero => exact fun s asked _ hresult => repeated_of_finish hresult rfl
  | succ n ih =>
    intro s asked hgraph hresult
    by_cases hstatus : (s.recognized rules chooser config asked).status = .complete
    case neg => exact repeated_of_incomplete hquiet hstatus hresult
    case pos =>
      have hsame : s.recognized rules .scripted config []
          = s.recognized rules chooser config asked :=
        RunState.recognized_scripted fun h => nomatch hstatus.symm.trans h
      have hcycle := runCycles_of_complete n hstatus
      have hscripted : runCycles rules .scripted config (n + 1) s [] = _ :=
        runCycles_of_complete n (hsame ▸ hstatus)
      rw [hsame] at hscripted
      by_cases hnone : (s.recognized rules chooser config asked).options.isEmpty = true
      · -- nothing is offered
        rw [hcycle.trans (if_pos hnone)] at hresult ⊢
        exact repeated_of_finish hresult (hscripted.trans (if_pos hnone))
      dsimp only at hcycle hscripted
      rw [if_neg hnone] at hcycle hscripted
      rcases hchoose : chooser.choose asked (s.recognized rules chooser config asked).options
        s.candidate with ⟨choice, answered⟩
      rw [hchoose] at hcycle
      cases choice with
      | nil =>
        -- the chooser stops, and so does the prescription
        rw [hcycle.trans (if_pos rfl)] at hresult ⊢
        exact repeated_of_finish hresult hscripted
      | cons place others =>
        rw [if_neg (show ¬ (place :: others).isEmpty = true from nofun)] at hcycle
        cases hfind : (place :: others).find?
          ((s.recognized rules chooser config asked).options.length ≤ ·) with
        | some index =>
          rw [hfind] at hcycle
          rw [hcycle] at hresult
          exact nomatch hresult
        | none =>
          have hlt : place < (s.recognized rules chooser config asked).options.length := by
            simpa using List.find?_eq_none.1 hfind place List.mem_cons_self
          have ho := List.getElem?_eq_getElem hlt
          rw [runCycles_of_choice n hsingle hstatus hchoose hfind ho] at hresult ⊢
          obtain ⟨_, -, -, hwellFormed⟩ := RunState.applyChosen_offered hgraph hbuilt ho
          exact repeated_of_choice hgraph hbuilt hsingle hstatus ho
            (ih (.endCycle _) answered hwellFormed hresult)

/-- **A recipe replays.** A run that applies one option in each cycle and returns a
report is repeated by the steps it recorded: from the same candidate, the chooser
that prescribes the numbers of these steps, one in each cycle, leads to the same
candidate and the same report, and its prescriptions are used up then.

The run may have been cancelled from the outset, but not on its way. -/
theorem run_replays (candidate : Candidate) (rules : RuleSet) (chooser : Chooser σ) (state : σ)
    (config : RunConfig) (hgraph : candidate.graph.WellFormed)
    (hbuilt : ∀ rule ∈ rules.rules, rule.Built) (hsingle : config.applyAllChosen = false)
    {report : RunReport} (hresult : (run candidate rules chooser state config).result = .ok report)
    (hquiet : report.stopReason = .cancelled → config.limits.cancelled = true) :
    let done := run candidate rules chooser state config
    let steps := done.candidate.recipe.drop candidate.recipe.length
    done.candidate.recipe = candidate.recipe ++ steps ∧
      run candidate rules .scripted (replayScript steps) config
        = ⟨done.candidate, [], .ok report⟩ := by
  intro done steps
  obtain ⟨recorded, hrecipe, hreplay⟩ := runCycles_replays hbuilt hsingle hquiet config.maxCycles
    (.start rules candidate) state hgraph hresult
  change done.candidate.recipe = candidate.recipe ++ recorded at hrecipe
  have hsteps : steps = recorded := by
    show done.candidate.recipe.drop _ = _
    rw [hrecipe, List.drop_left]
  rw [hsteps]
  exact ⟨hrecipe, hreplay⟩

/-- The rules of which one replaces a node, once at most, and one cuts an arc. -/
def RuleSet.replaceOnceOrCut : RuleSet :=
  (({} : RuleSet).add (.replaceNode .any) (some 1)).add .cutArc

/-- The run in which always the last option is chosen ends with two steps in its recipe. -/
theorem result_replaceOnceOrCut :
    (run { graph := .edge true } .replaceOnceOrCut Chooser.reverse () {}).result.toOption = some
      { cycles := 2
        applied := 2
        stopReason := .noOptions
        diagnostics := [.ruleLimitReached 0 0] } := by
  decide +kernel

/-- The last option in each cycle: a node is replaced, which only happens once, and
then the arc is cut. -/
theorem run_replays_replaceOnceOrCut :
    let done := run { graph := .edge true } .replaceOnceOrCut Chooser.reverse () {}
    ∃ report : RunReport, done.result = .ok report ∧ report.applied = 2 ∧
      run { graph := .edge true } .replaceOnceOrCut .scripted [[2], [1]] {}
        = ⟨done.candidate, [], .ok report⟩ := by
  intro done
  have hbuilt : ∀ rule ∈ RuleSet.replaceOnceOrCut.rules, rule.Built := by
    simp [RuleSet.replaceOnceOrCut, RuleSet.add, GrammarRule.replaceNode_built,
      GrammarRule.cutArc_built]
  have hresult := eq_ok_of_toOption result_replaceOnceOrCut
  have hquiet : StopReason.noOptions ≠ .cancelled := by decide
  have hscript : replayScript done.candidate.recipe = [[2], [1]] := by decide +kernel
  have hreplays := (run_replays { graph := .edge true } .replaceOnceOrCut Chooser.reverse () {}
    (Graph.edge_wellFormed true) hbuilt rfl hresult (absurd · hquiet)).2
  exact ⟨_, hresult, rfl, hscript ▸ hreplays⟩

end GraphGrammar
