import GraphGrammar.Graph.Element

/-!
# Diagnostics

Something worth reporting that did not stop an operation.
-/

namespace GraphGrammar

/-- How much a diagnostic matters. -/
inductive Severity where
  | info
  | warning
deriving DecidableEq, Repr

/-- Something worth reporting. -/
inductive Diagnostic where
  /-- A freed end of an arc was taken up by no embedding rule and dangles. -/
  | danglingEnd (arc : ArcKey) (name : Name) (freed : ArcEnd)
  /-- A chosen option conflicts with one applied before it in the cycle. -/
  | conflictSkipped (optionNumber : Nat)
  /-- A chosen option was refused, as a rule because the host had changed. -/
  | optionNotApplied (optionNumber : Nat) (reason : String)
  /-- A rule has been applied as often as it may be. -/
  | ruleLimitReached (ruleSetIndex ruleNumber : Nat)
  /-- Recognition ended before everything was searched. -/
  | recognitionIncomplete (reason : String)
deriving DecidableEq, Repr

namespace Diagnostic

/-- The sentence a person reads. -/
def text : Diagnostic → String
  | danglingEnd _ name freed =>
    s!"no embedding rule reattached the {freed.word} end of arc `{name}`"
  | conflictSkipped optionNumber =>
    s!"option {optionNumber} conflicts with an option applied before it and was skipped"
  | optionNotApplied optionNumber reason => s!"option {optionNumber} was not applied: {reason}"
  | ruleLimitReached ruleSetIndex ruleNumber =>
    s!"rule {ruleNumber} of rule set {ruleSetIndex} reached its application limit"
  | recognitionIncomplete reason => s!"recognition did not finish: {reason}"

/-- How much a diagnostic matters. -/
def severity : Diagnostic → Severity
  | ruleLimitReached _ _ => .info
  | _ => .warning

end Diagnostic

end GraphGrammar
