import GraphGrammar.Proofs.ConfluentSet
import GraphGrammar.Proofs.Cycle

/-!
# Whole runs

A run is a history of cycles, each of which begins where the one before it
ended, and an ending (`runCycles_history`). What a cycle keeps is kept by a
history. So the graph stays well formed and each cycle is accounted for
(`History.accounted`), and the books at the end tell what became of the candidate
(`History.grows`). `run_accounted` puts the two together.

A run with a limit on its cycles is a recursion on the number of cycles that are left. The
history is found along this recursion, and everything that is said of runs afterwards is an
induction on the history and not on that number.
-/

namespace GraphGrammar

variable {σ : Type} {rules : RuleSet} {chooser : Chooser σ} {config : RunConfig}
  {s s' : RunState} {asked asked' : σ} {cycles : List (Cycle σ)}

/-! ## Histories

A history links the states of the run with those of the chooser, which may depend on all that it
was asked before. The cycles in it are valid: each was begun with a complete recognition and a
choice. -/

/-- **The cycles that lead from one state of a run to another**, with the states of the chooser.
It keeps the cycles in order, so that what is said of each of them can be said of all. -/
inductive History (rules : RuleSet) (chooser : Chooser σ) (config : RunConfig) :
    RunState → σ → List (Cycle σ) → RunState → σ → Prop
  | nil (s : RunState) (asked : σ) : History rules chooser config s asked [] s asked
  | cons {c : Cycle σ} {cycles : List (Cycle σ)} {s' : RunState} {asked' : σ}
      (hvalid : c.Valid rules chooser config)
      (hrest : History rules chooser config (c.after rules config) c.answered cycles s' asked') :
      History rules chooser config c.before c.asked (c :: cycles) s' asked'

/-- **How a run ends** in a state: with a report, or because the chooser picked a
place beyond what it was offered. -/
inductive Ends (rules : RuleSet) (chooser : Chooser σ) (config : RunConfig) (s : RunState)
    (asked : σ) : Run σ → Prop
  | finished {answered : σ} {report : RunReport} {remarks : List Diagnostic} {reason : StopReason}
      (hreport : report = { s.report with
        stopReason := reason
        diagnostics := s.report.diagnostics ++ remarks })
      (hremarks : ∀ remark ∈ remarks, ∃ text, remark = .recognitionIncomplete text) :
      Ends rules chooser config s asked ⟨s.candidate, answered, .ok report⟩
  | invalid {choice : List Nat} {answered : σ} {index : Nat}
      (hchosen : chooser.choose asked (s.recognized rules chooser config asked).options s.candidate
        = (choice, answered))
      (hindex : index ∈ choice)
      (hbeyond : (s.recognized rules chooser config asked).options.length ≤ index) :
      Ends rules chooser config s asked ⟨s.candidate, answered,
        .fail (.invalidChoice index (s.recognized rules chooser config asked).options.length)⟩

/-- A run that ends without a remark of its own. -/
theorem Ends.finish (reason : StopReason) (answered : σ) :
    Ends rules chooser config s asked (s.finish answered reason) := by
  have hreport : ({ s.report with stopReason := reason } : RunReport)
      = { s.report with stopReason := reason, diagnostics := s.report.diagnostics ++ [] } := by
    rw [List.append_nil]
  exact .finished hreport nofun

/-- The candidate is the one of the state in which the run ends. -/
theorem Ends.candidate_eq {done : Run σ} (h : Ends rules chooser config s asked done) :
    done.candidate = s.candidate := by
  cases h <;> rfl

/-- **A run is a history and an ending.** Each way out of a cycle is an ending of its own: the
recognition was cut short, there are no options, the chooser wants none or names a place that is
not there. In what remains all places are valid, the cycle is put in front, and the induction
hypothesis gives the rest. -/
theorem runCycles_history (rules : RuleSet) (chooser : Chooser σ) (config : RunConfig) (n : Nat) :
    ∀ (s : RunState) (asked : σ), ∃ cycles s' asked',
      History rules chooser config s asked cycles s' asked' ∧ cycles.length ≤ n ∧
        Ends rules chooser config s' asked' (runCycles rules chooser config n s asked) := by
  induction n with
  | zero => exact fun s asked => ⟨[], s, asked, .nil s asked, Nat.le_refl 0, .finish ..⟩
  | succ n ih =>
    intro s asked
    -- a run that ends here has no further cycles
    have hends : ∀ {done : Run σ}, Ends rules chooser config s asked done → ∃ cycles s' asked',
        History rules chooser config s asked cycles s' asked' ∧ cycles.length ≤ n + 1 ∧
          Ends rules chooser config s' asked' done :=
      fun h => ⟨[], s, asked, .nil s asked, Nat.zero_le _, h⟩
    have hrecognized : rules.recognizeWhere s.candidate.graph
        { config.limits with cancelled := config.limits.cancelled || chooser.cancels asked }
        (s.enabled rules) = s.recognized rules chooser config asked := rfl
    unfold runCycles
    dsimp only
    rw [hrecognized]
    cases hstatus : (s.recognized rules chooser config asked).status with
    | cancelled => exact hends (.finish ..)
    | budgetExhausted =>
      exact hends (.finished rfl fun remark hremark => ⟨_, List.mem_singleton.1 hremark⟩)
    | complete =>
      let options := (s.recognized rules chooser config asked).options
      let answer := chooser.choose asked options s.candidate
      have hchosen : chooser.choose asked options s.candidate = (answer.1, answer.2) := rfl
      dsimp only
      split
      · exact hends (.finish ..)
      split
      · exact hends (.finish ..)
      rename_i hnonempty
      split
      · rename_i index hfind
        have hbeyond : decide (options.length ≤ index) = true :=
          List.find?_some (p := fun place => decide (options.length ≤ place)) hfind
        exact hends (.invalid hchosen (List.mem_of_find?_eq_some hfind)
          (of_decide_eq_true hbeyond))
      · rename_i hfind
        -- all places are within the offer, so this is a cycle, and the run goes on behind it
        let c : Cycle σ := ⟨s, asked, options, answer.1, answer.2⟩
        have hvalid : c.Valid rules chooser config := by
          refine ⟨hstatus, rfl, hchosen, fun h => hnonempty (List.isEmpty_iff.2 h), ?_⟩
          intro place hplace
          have hin := List.find?_eq_none.1 hfind place hplace
          exact Nat.lt_of_not_le fun hle => hin (decide_eq_true hle)
        obtain ⟨cycles, s', asked', hhistory, hlength, hdone⟩ :=
          ih (c.after rules config) c.answered
        refine ⟨c :: cycles, s', asked', .cons hvalid hhistory, Nat.succ_le_succ hlength, ?_⟩
        unfold Cycle.after Cycle.progress at hdone
        rw [List.take_length] at hdone
        exact hdone

/-! ## What a history keeps

What one cycle keeps is known from `GraphGrammar.Proofs.Cycle`. Here it is carried along, with
the rules as they were at the start. -/

/-- **Every cycle of a history is accounted for**, and the graph is well formed at
the end. -/
theorem History.accounted (h : History rules chooser config s asked cycles s' asked')
    (hgraph : s.candidate.graph.WellFormed) (hbuilt : ∀ rule ∈ rules.rules, rule.Built) :
    (∀ c ∈ cycles, c.Accounted rules config) ∧ s'.candidate.graph.WellFormed := by
  induction h with
  | nil => exact ⟨nofun, hgraph⟩
  | cons hvalid _ ih =>
    obtain ⟨hcycles, hend⟩ := ih (Cycle.wellFormed_after hvalid hgraph hbuilt)
    exact ⟨List.forall_mem_cons.2 ⟨Cycle.accounted hvalid hgraph hbuilt, hcycles⟩, hend⟩

/-- The books grow by the steps of the cycles, one cycle after another. -/
theorem History.grows (h : History rules chooser config s asked cycles s' asked') :
    ∃ steps, RunState.Grows rules s s' steps cycles.length := by
  induction h with
  | nil s => exact ⟨[], .refl rules s⟩
  | @cons c cycles s' asked' _ _ ih =>
    obtain ⟨steps, hsteps, -⟩ := c.grows_after rules config
    obtain ⟨others, hothers⟩ := ih
    refine ⟨steps ++ others, ?_⟩
    rw [List.length_cons, Nat.add_comm]
    exact hsteps.trans hothers

/-- The state in which a run begins. -/
def RunState.start (rules : RuleSet) (candidate : Candidate) : RunState where
  candidate := candidate
  applications := List.replicate rules.size 0

/-- **A report tells what became of a candidate**: how many steps the recipe has grown by and how
many cycles there were since. Its numbers from an evaluation are the ones it had. What a report
counts is what the candidate shows. -/
structure RunReport.Tells (report : RunReport) (before after : Candidate) : Prop where
  recipe : ∃ steps, after.recipe = before.recipe ++ steps ∧ steps.length = report.applied
  generation : after.generation = before.generation + report.cycles
  performance : after.performance = before.performance

/-- **A run accounts for what it does.** It is a history of cycles, each of them
accounted for, and it leaves a well-formed graph.

* If it returns a report, there were as many cycles as the report says and no more
  than were allowed, the report tells what became of the candidate, and its
  diagnostics are those of the cycles, apart from a last remark that recognition
  was incomplete.
* If it fails, the chooser was shown the candidate that is returned, and picked a
  place beyond the options it was offered. -/
theorem run_accounted (candidate : Candidate) (rules : RuleSet) (chooser : Chooser σ) (state : σ)
    (config : RunConfig) (hgraph : candidate.graph.WellFormed)
    (hbuilt : ∀ rule ∈ rules.rules, rule.Built) :
    let done := run candidate rules chooser state config
    ∃ cycles s asked,
      History rules chooser config (.start rules candidate) state cycles s asked ∧
      (∀ c ∈ cycles, c.Accounted rules config) ∧
      done.candidate = s.candidate ∧ done.candidate.graph.WellFormed ∧
      (∀ report, done.result = .ok report →
        cycles.length = report.cycles ∧ report.cycles ≤ config.maxCycles ∧
        report.Tells candidate done.candidate ∧
        ∃ remarks, report.diagnostics = s.report.diagnostics ++ remarks ∧
          ∀ remark ∈ remarks, ∃ text, remark = .recognitionIncomplete text) ∧
      ∀ failure, done.result = .error failure →
        let offered := (s.recognized rules chooser config asked).options
        ∃ choice answered index,
          chooser.choose asked offered done.candidate = (choice, answered) ∧
          index ∈ choice ∧ offered.length ≤ index ∧
          failure.cause = .invalidChoice index offered.length := by
  intro done
  obtain ⟨cycles, s, asked, hhistory, hlength, hends⟩ :=
    runCycles_history rules chooser config config.maxCycles (.start rules candidate) state
  obtain ⟨hcycles, hwellFormed⟩ := hhistory.accounted hgraph hbuilt
  obtain ⟨steps, hgrows⟩ := hhistory.grows
  -- the report counts from zero, so what the books have grown by is what they say
  have hcount : cycles.length = s.report.cycles := (hgrows.cycles.trans (Nat.zero_add _)).symm
  change Ends rules chooser config s asked done at hends
  refine ⟨cycles, s, asked, hhistory, hcycles, ?_⟩
  generalize done = result at hends ⊢
  cases hends with
  | finished hreport hremarks =>
    refine ⟨rfl, hwellFormed, fun report h => ?_, nofun⟩
    cases h
    rw [hreport]
    refine ⟨hcount, hcount ▸ hlength, ?_, _, rfl, hremarks⟩
    constructor
    · exact ⟨steps, hgrows.recipe, (hgrows.applied.trans (Nat.zero_add _)).symm⟩
    · exact hcount ▸ hgrows.generation
    · exact hgrows.performance
  | invalid hchosen hindex hbeyond =>
    refine ⟨rfl, hwellFormed, nofun, fun failure h => ?_⟩
    cases h
    exact ⟨_, _, _, hchosen, hindex, hbeyond, rfl⟩

/-- The rules of which one turns around the arcs of a node and one cuts them. -/
def RuleSet.turnAndCut : RuleSet :=
  (({} : RuleSet).add (.replaceNode .into)).add .cutArc

/-- The run goes through one cycle of three choices, and only the first of them is applied. -/
theorem result_turnAndCut :
    (run { graph := .edge true } .turnAndCut Chooser.scripted [[0, 2, 0]]
      { applyAllChosen := true }).result.toOption = some
        { cycles := 1
          applied := 1
          stopReason := .chooserStopped
          diagnostics := [.optionNotApplied 2 "the option no longer matches the host",
            .conflictSkipped 0] } := by
  decide +kernel

/-- Three choices in one cycle: the first is applied and turns an arc around, the
second has matched that arc and is stale, and the third is the first one again. -/
theorem run_accounted_turnAndCut :
    ∃ report : RunReport,
      (run { graph := .edge true } .turnAndCut Chooser.scripted [[0, 2, 0]]
        { applyAllChosen := true }).result = .ok report ∧
      report.diagnostics = [.optionNotApplied 2 "the option no longer matches the host",
        .conflictSkipped 0] ∧
      report.applied = 1 ∧ report.cycles = 1 ∧
      (run { graph := .edge true } .turnAndCut Chooser.scripted [[0, 2, 0]]
        { applyAllChosen := true }).candidate.graph.WellFormed ∧
      report.Tells { graph := .edge true }
        (run { graph := .edge true } .turnAndCut Chooser.scripted [[0, 2, 0]]
          { applyAllChosen := true }).candidate := by
  have hbuilt : ∀ rule ∈ RuleSet.turnAndCut.rules, rule.Built := by
    simp [RuleSet.turnAndCut, RuleSet.add, GrammarRule.replaceNode_built, GrammarRule.cutArc_built]
  have hresult := eq_ok_of_toOption result_turnAndCut
  obtain ⟨_, _, _, -, -, -, hwellFormed, htells, -⟩ :=
    run_accounted { graph := .edge true } .turnAndCut Chooser.scripted [[0, 2, 0]]
      { applyAllChosen := true } (Graph.edge_wellFormed true) hbuilt
  exact ⟨_, hresult, rfl, rfl, rfl, hwellFormed, (htells _ hresult).2.2.1⟩

end GraphGrammar
