import GraphGrammar.Proofs.Confluence
import GraphGrammar.Proofs.Run

/-!
# Limits on the applications of a rule

A rule that has reached its limit is not recognized any more, so the limit holds
from one cycle to the next (`Cycle.applicationsOf_after_le`). Within a cycle it is
not looked at. A run that applies one option per cycle therefore keeps every limit,
and a run that applies all that was chosen exceeds it by no more than what the
chooser picks in one cycle beyond one option of the rule
(`applications_within_limit`). It does exceed it (`limit_exceeded_sprout`).

The bound is the best there is without a look at the limit within a cycle: a chooser that picks
several options of a rule at the last cycle in which the rule is asked may go beyond the limit by
all but one of them (`limit_exceeded_sprout`). -/

namespace GraphGrammar

variable {σ : Type} {rules : RuleSet} {chooser : Chooser σ} {config : RunConfig}
  {s s' : RunState} {asked asked' : σ} {cycles : List (Cycle σ)} {n limit extra : Nat}

/-- **The chooser picks at most so many options of a rule** at a time. It is asked of every state
of the chooser and of every list of options, so that nothing need be known of the run. -/
def Chooser.PicksAtMost (chooser : Chooser σ) (n count : Nat) : Prop :=
  ∀ asked options candidate, ((chooser.choose asked options candidate).1.filterMap
    (options[·]?)).countP (·.ruleNumber == n) ≤ count

/-- Only rules below their limits have options. -/
theorem RunState.applicationsOf_lt_limit {o : RuleOption} {i : Nat}
    (h : (s.recognized rules chooser config asked).options[i]? = some o)
    (hlimit : rules.limit? o.ruleNumber = some limit) : s.applicationsOf o.ruleNumber < limit := by
  have henabled := (RuleSet.offers_of_recognizeWhere h).2.1
  unfold enabled at henabled
  rw [hlimit] at henabled
  exact of_decide_eq_true henabled

/-- How many options of a rule a cycle acts on at most: one, unless all that was
chosen is applied. -/
theorem Cycle.countP_places_le {c : Cycle σ} (hvalid : c.Valid rules chooser config)
    (hchoice : config.applyAllChosen = true → chooser.PicksAtMost n (extra + 1)) :
    ((c.places config).filterMap (c.offered[·]?)).countP (·.ruleNumber == n) ≤ extra + 1 := by
  unfold places
  split
  · have hcount := hchoice ‹_› c.asked c.offered c.before.candidate
    rwa [hvalid.chosen] at hcount
  · calc ((c.choice.take 1).filterMap (c.offered[·]?)).countP (·.ruleNumber == n)
        ≤ ((c.choice.take 1).filterMap (c.offered[·]?)).length := List.countP_le_length
      _ ≤ (c.choice.take 1).length := List.length_filterMap_le ..
      _ ≤ 1 := List.length_take_le 1 _
      _ ≤ extra + 1 := Nat.le_add_left 1 extra

/-- **A cycle goes beyond a limit by what it acts on beyond one option.** -/
theorem Cycle.applicationsOf_after_le {c : Cycle σ} (hvalid : c.Valid rules chooser config)
    (hlimit : rules.limit? n = some limit) (hn : n < c.before.applications.length)
    (hcount : ((c.places config).filterMap (c.offered[·]?)).countP (·.ruleNumber == n) ≤ extra + 1)
    (hbefore : c.before.applicationsOf n ≤ limit + extra) :
    (c.after rules config).applicationsOf n ≤ limit + extra := by
  obtain ⟨steps, hgrows, hsteps⟩ := c.grows_after rules config
  rw [hgrows.applicationsOf n hn]
  by_cases hbelow : c.before.applicationsOf n < limit
  · have hle := Nat.le_trans (hsteps n) hcount
    omega
  · -- the rule has reached its limit, and no option of it was offered
    have hnone : ((c.places config).filterMap (c.offered[·]?)).countP (·.ruleNumber == n) = 0 := by
      refine List.countP_eq_zero.2 fun o ho hnumber => hbelow ?_
      obtain ⟨place, -, hplace⟩ := List.mem_filterMap.1 ho
      rw [← hvalid.offered] at hplace
      rw [← eq_of_beq hnumber] at hlimit ⊢
      exact RunState.applicationsOf_lt_limit hplace hlimit
    have hzero := Nat.le_trans (hsteps n) (Nat.le_of_eq hnone)
    omega

/-- **Over a whole history the limit is exceeded by what one cycle may add**, since a rule that
has reached it is not asked again. -/
theorem History.applicationsOf_le (h : History rules chooser config s asked cycles s' asked')
    (hlimit : rules.limit? n = some limit) (hn : n < s.applications.length)
    (hchoice : config.applyAllChosen = true → chooser.PicksAtMost n (extra + 1))
    (hbefore : s.applicationsOf n ≤ limit + extra) : s'.applicationsOf n ≤ limit + extra := by
  induction h with
  | nil => exact hbefore
  | @cons c cycles s' asked' hvalid _ ih =>
    obtain ⟨_, hgrows, -⟩ := c.grows_after rules config
    have hafter := c.applicationsOf_after_le hvalid hlimit hn
      (Cycle.countP_places_le hvalid hchoice) hbefore
    exact ih (hgrows.applications_length ▸ hn) hafter

/-- **A run keeps the limits of its rules up to what is chosen within a cycle.** If
it applies one option per cycle, no rule is applied more often than its limit
allows. If it applies all that was chosen, then at most as many times more as the
chooser picks options of the rule beyond one. -/
theorem applications_within_limit (candidate : Candidate) (rules : RuleSet) (chooser : Chooser σ)
    (state : σ) (config : RunConfig) {n limit : Nat} (extra : Nat)
    (hlimit : rules.limit? n = some limit)
    (hchoice : config.applyAllChosen = true → chooser.PicksAtMost n (extra + 1)) :
    ∃ steps, (run candidate rules chooser state config).candidate.recipe
        = candidate.recipe ++ steps ∧
      steps.countP (·.ruleNumber == n) ≤ limit + extra := by
  obtain ⟨cycles, s, asked, hhistory, -, hends⟩ :=
    runCycles_history rules chooser config config.maxCycles (.start rules candidate) state
  obtain ⟨steps, hgrows⟩ := hhistory.grows
  refine ⟨steps, hends.candidate_eq ▸ hgrows.recipe, ?_⟩
  by_cases hn : n < rules.size
  · have hlength : n < (RunState.start rules candidate).applications.length := by
      rwa [RunState.start, List.length_replicate]
    have hstart : (RunState.start rules candidate).applicationsOf n = 0 := by
      simp [RunState.start, RunState.applicationsOf, hn]
    have hle := hhistory.applicationsOf_le hlimit hlength hchoice (hstart ▸ Nat.zero_le _)
    rwa [hgrows.applicationsOf n hlength, hstart, Nat.zero_add] at hle
  · -- there is no such rule, and so no step of it
    have hzero : steps.countP (·.ruleNumber == n) = 0 :=
      List.countP_eq_zero.2 fun step hstep hnumber =>
        hn (eq_of_beq hnumber ▸ hgrows.numbers step hstep)
    omega

/-- A chooser that picks two options at a time exceeds a limit by one application at
most. -/
theorem applications_within_limit_sprout :
    ∃ steps, (run { graph := .edge true } (({} : RuleSet).add .sprout (some 1))
        (.stateless fun options _ => (List.range options.length).take 2) ()
        { applyAllChosen := true }).candidate.recipe = [] ++ steps ∧
      steps.countP (·.ruleNumber == 0) ≤ 1 + 1 := by
  refine applications_within_limit { graph := .edge true } _ _ () _ 1 rfl
    fun _ _ options candidate => ?_
  show (((List.range options.length).take 2).filterMap (options[·]?)).countP _ ≤ 2
  calc (((List.range options.length).take 2).filterMap (options[·]?)).countP _
      ≤ (((List.range options.length).take 2).filterMap (options[·]?)).length :=
        List.countP_le_length
    _ ≤ ((List.range options.length).take 2).length := List.length_filterMap_le ..
    _ ≤ 2 := List.length_take_le ..

/-- **A limit is exceeded within a cycle**: a rule that may be applied once is
applied at two options of the first cycle. -/
theorem limit_exceeded_sprout :
    (({} : RuleSet).add .sprout (some 1)).limit? 0 = some 1 ∧
      (run { graph := .edge true } (({} : RuleSet).add .sprout (some 1)) Chooser.all ()
        { maxCycles := 1, applyAllChosen := true }).candidate.recipe.countP
          (·.ruleNumber == 0) = 2 := by
  decide +kernel

end GraphGrammar
