import GraphGrammar.Application.Basic
import GraphGrammar.Design.Chooser
import GraphGrammar.RuleSet

/-!
# Runs

A run lets a candidate grow in cycles. Each cycle recognizes the rules of a
rule set in the graph of the candidate, lets the chooser choose among the
options, and applies what was chosen. The run ends when there are no options,
when the chooser chooses nothing, when recognition is cut short, or after so
many cycles.

In one cycle either the first choice alone is applied, or all of them in turn,
skipping those that conflict with one applied before. An option that cannot be
applied any more is reported and does not end the run. A choice that is not
among the options does, and leaves the candidate as the chooser saw it.

A rule that has reached its limit is no longer recognized. The limit is looked
at when a cycle begins, so it is the choice within a cycle that can still
exceed it.
-/

namespace GraphGrammar

/-- How a run is to be done. -/
structure RunConfig where
  maxCycles : Nat := 100
  limits : Limits := {}
  /-- Apply all that was chosen in a cycle and not only the first of it. -/
  applyAllChosen : Bool := false

/-- Why a run ended. -/
inductive StopReason where
  | noOptions
  | chooserStopped
  | maxCycles
  | cancelled
  | budgetExhausted
deriving DecidableEq, Repr

/-- What a run did. -/
structure RunReport where
  cycles : Nat := 0
  applied : Nat := 0
  stopReason : StopReason := .maxCycles
  diagnostics : List Diagnostic := []
deriving DecidableEq, Repr

/-- Why a run failed. -/
inductive RunError where
  /-- The chooser picked a place beyond the options. -/
  | invalidChoice (index available : Nat)
deriving DecidableEq, Repr

namespace RunError

/-- The wording of a cause. -/
def text : RunError → String
  | invalidChoice index available =>
    s!"the chooser picked option {index}, but only {available} were offered"

instance : Cause RunError := ⟨text⟩

end RunError

/-- A run under way. -/
structure RunState where
  candidate : Candidate
  report : RunReport := {}
  /-- How often each rule was applied. -/
  applications : List Nat := []

/-- A run that has ended: the candidate, the state of the chooser, and the
report or the reason why there is none. -/
structure Run (σ : Type) where
  candidate : Candidate
  chooser : σ
  result : Outcome RunError RunReport

namespace RunState

/-- Reports something. -/
def diagnose (s : RunState) (diagnostics : List Diagnostic) : RunState :=
  { s with report := { s.report with diagnostics := s.report.diagnostics ++ diagnostics } }

/-- How often a rule was applied. -/
def applicationsOf (s : RunState) (ruleNumber : Nat) : Nat :=
  s.applications[ruleNumber]?.getD 0

/-- Whether a rule may still be applied. -/
def enabled (s : RunState) (rules : RuleSet) (ruleNumber : Nat) : Bool :=
  (rules.limit? ruleNumber).all (s.applicationsOf ruleNumber < ·)

/-- Puts down that a rule was applied at an option, and reports if that was
the last time. -/
def recordApplication (s : RunState) (rules : RuleSet) (rule : GrammarRule) (o : RuleOption) :
    RunState :=
  let applications := s.applications.modify o.ruleNumber (· + 1)
  let counted : RunState :=
    { candidate := { s.candidate with recipe := s.candidate.recipe ++ [.of rule o] }
      report := { s.report with applied := s.report.applied + 1 }
      applications }
  if rules.limit? o.ruleNumber = some (counted.applicationsOf o.ruleNumber) then
    counted.diagnose [.ruleLimitReached rules.index o.ruleNumber]
  else counted

/-- Applies a chosen option unless it conflicts with those applied before it
in the cycle, and lists it with them if it could be applied. -/
def applyChosen (rules : RuleSet) (state : RunState × List RuleOption) (o : RuleOption) :
    RunState × List RuleOption :=
  let (s, earlier) := state
  if earlier.any (!areConfluent · o) then (s.diagnose [.conflictSkipped o.optionNumber], earlier)
  else
    match rules.rule? o.ruleNumber with
    | none => (s, earlier)
    | some rule =>
      let application := apply s.candidate.graph rule o
      let s := { s with candidate := { s.candidate with graph := application.host } }
      match application.result with
      | .error failure =>
        (s.diagnose [.optionNotApplied o.optionNumber failure.cause.text], earlier)
      | .ok report =>
        ((s.diagnose report.diagnostics).recordApplication rules rule o, earlier ++ [o])

/-- Completes a cycle. -/
def endCycle (s : RunState) : RunState :=
  { s with
    candidate := { s.candidate with generation := s.candidate.generation + 1 }
    report := { s.report with cycles := s.report.cycles + 1 } }

/-- Ends the run. -/
def finish {σ : Type} (s : RunState) (chooser : σ) (reason : StopReason) : Run σ :=
  ⟨s.candidate, chooser, .ok { s.report with stopReason := reason }⟩

end RunState

/-- Runs at most so many cycles. -/
def runCycles {σ : Type} (rules : RuleSet) (chooser : Chooser σ) (config : RunConfig) :
    Nat → RunState → σ → Run σ
  | 0, s, state => s.finish state .maxCycles
  | cycles + 1, s, state =>
    let limits :=
      { config.limits with cancelled := config.limits.cancelled || chooser.cancels state }
    let recognition := rules.recognizeWhere s.candidate.graph limits (s.enabled rules)
    match recognition.status with
    | .cancelled => s.finish state .cancelled
    | .budgetExhausted =>
      let cycle := s.report.cycles
      (s.diagnose [.recognitionIncomplete s!"step budget exhausted in cycle {cycle}"]).finish
        state .budgetExhausted
    | .complete =>
      let options := recognition.options
      if options.isEmpty then s.finish state .noOptions
      else
        let (choice, state) := chooser.choose state options s.candidate
        if choice.isEmpty then s.finish state .chooserStopped
        else
          match choice.find? (options.length ≤ ·) with
          | some index => ⟨s.candidate, state, .fail (.invalidChoice index options.length)⟩
          | none =>
            let chosen := (if config.applyAllChosen then choice else choice.take 1).filterMap
              (options[·]?)
            let (applied, _) := chosen.foldl (RunState.applyChosen rules) (s, [])
            runCycles rules chooser config cycles applied.endCycle state

/-- Runs a candidate through cycles of recognizing, choosing and applying. -/
def run {σ : Type} (candidate : Candidate) (rules : RuleSet) (chooser : Chooser σ) (state : σ)
    (config : RunConfig) : Run σ :=
  runCycles rules chooser config config.maxCycles
    { candidate, applications := List.replicate rules.size 0 } state

end GraphGrammar
