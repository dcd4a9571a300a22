import GraphGrammar.Proofs.LimitedRecognition
import GraphGrammar.Proofs.RuleSet

/-!
# A request to cancel is heeded or makes no difference

Recognition looks at a request to cancel when it counts a step. If it sees one,
it ends as cancelled. A recognition that was asked to stop and did not end as
cancelled has counted no step since, and so it returns what it would have
returned without the request.

Of the search this is known, since a request to cancel shortens it
(`Limits.shortens_cancelled`). Here it is said of everything that calls it.

A run of a grammar looks at the request more than once, and with this it need not be asked when
the request came: if no recognition ended as cancelled, all of them are what they would have
been.
-/

namespace GraphGrammar

open Occurrence (ofRule)

/-- The limits without the request to cancel. -/
def Limits.uncancelled (limits : Limits) : Limits := { limits with cancelled := false }

variable {host : Graph} {rule : GrammarRule} {limits : Limits}

/-- **A recognition of one rule heeds the request or is not changed by it.** -/
theorem recognize_heeds (host : Graph) (rule : GrammarRule) (limits : Limits) :
    (recognize host rule limits).status = .cancelled ∨
      recognize host rule limits = recognize host rule limits.uncancelled := by
  cases hcancelled : limits.cancelled with
  | false => exact .inr (by rw [Limits.uncancelled, ← hcancelled])
  | true =>
    have hshortens : limits.Shortens .cancelled limits.uncancelled := by
      have h := limits.shortens_cancelled false
      rw [← hcancelled] at h
      exact h
    rcases recognize_eq_searched_or host rule with hnothing | ⟨-, hsearched⟩
    · rw [hnothing, hnothing]
      exact .inr rfl
    rw [hsearched, hsearched]
    rcases (ofRule host rule).run_cut hshortens with heq | hcut
    · refine .inr ?_
      rw [searched, searched, heq]
      rfl
    · refine .inl ?_
      show ((ofRule host rule).run limits).status = .cancelled
      rw [Progress.status, hcut.stop]
      rfl

namespace RuleSet

/-- The same for the rules of a set one after another: the first recognition that heeds the
request ends it all. -/
theorem recognizeFrom_heeds (index : Nat) (host : Graph) (limits : Limits) :
    ∀ (rules : List (GrammarRule × Nat)) (sofar : Recognition),
      (recognizeFrom index host limits rules sofar).status = .cancelled ∨
        recognizeFrom index host limits rules sofar
          = recognizeFrom index host limits.uncancelled rules sofar
  | [], _ => .inr rfl
  | (rule, ruleNumber) :: rest, sofar => by
    rw [recognizeFrom, recognizeFrom]
    rcases recognize_heeds host rule limits with hcancelled | heq
    · have hincomplete : ¬ (GraphGrammar.recognize host rule limits).isComplete = true := by
        rw [Recognition.isComplete, hcancelled]
        decide
      rw [if_neg hincomplete]
      exact .inl hcancelled
    · rw [← heq]
      split
      · exact recognizeFrom_heeds index host limits rest _
      · exact .inr rfl

/-- **A recognition of a rule set that did not end as cancelled is what it would
have been without a request to cancel.** -/
theorem recognizeWhere_of_not_cancelled (s : RuleSet) (enabled : Nat → Bool)
    (h : (s.recognizeWhere host limits enabled).status ≠ .cancelled) :
    s.recognizeWhere host limits.uncancelled enabled = s.recognizeWhere host limits enabled := by
  unfold recognizeWhere at h ⊢
  dsimp only at h ⊢
  rw [(recognizeFrom_heeds s.index host limits _ _).resolve_left h]

end RuleSet

end GraphGrammar
