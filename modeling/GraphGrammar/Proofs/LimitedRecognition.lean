import GraphGrammar.Proofs.LimitedSearch
import GraphGrammar.Proofs.Recognition
import Mathlib.Data.List.Infix

/-!
# Limits only cut a recognition short

Under any limits a recognition returns the first of the options that it would
return without them, in the same order and with the same numbers
(`options_prefix_of_tighter`). How many these are, and what the recognition says of
itself, depends on the limit. Asked for a number of options it returns as many, or all
there are, and is complete (`options_maxOptions`). Given a budget of steps it does as
it would without one if the budget lasts, and otherwise it gives up one step beyond
(`recognize_maxSteps`). The two limits do not interfere: a budget cuts a recognition
that is asked for a number of options as it cuts any other.

A recognition that is asked for a single option therefore returns one whenever the
rule has a match (`recognize_one_iff`).

A budget counts assignments of nodes, those in the search for negative elements included. It is a
bound on work and not on results, so what it leaves cannot be told from the rule and the host
without running the search; what can be told is how the recognition ends.
-/

namespace GraphGrammar

open Occurrence (ofRule)

variable {host : Graph} {rule : GrammarRule} {limits limits' : Limits}

/-! ## A recognition and its search

The globals of the host are looked at first, and if they are not as the rule asks there is no
search. This does not depend on the limits, so what is compared below is two searches. -/

/-- The first options, as many as asked for. -/
def upTo (maxOptions : Option Nat) (options : List RuleOption) : List RuleOption :=
  match maxOptions with
  | none => options
  | some count => options.take count

/-- What is returned of a search. -/
def searched (host : Graph) (rule : GrammarRule) (limits : Limits) : Recognition where
  options := upTo limits.maxOptions
    (optionsOf host rule (globalLabelStarts rule host.globalLabels)
      ((ofRule host rule).run limits).found.toList)
  status := ((ofRule host rule).run limits).status
  steps := ((ofRule host rule).run limits).steps

/-- Whether there is a search does not depend on the limits. -/
theorem recognize_eq_searched_or (host : Graph) (rule : GrammarRule) :
    (∀ limits, recognize host rule limits = {}) ∨
      globalLabelStarts rule host.globalLabels ≠ [] ∧
        ∀ limits, recognize host rule limits = searched host rule limits := by
  by_cases hstarts : (globalLabelStarts rule host.globalLabels).isEmpty = true
  · refine .inl fun limits => ?_
    rw [recognize, if_pos hstarts]
  by_cases hvalues : rule.globalVariableConstraints.all (·.holds host.globalVariables) = true
  · refine .inr ⟨fun h => hstarts (List.isEmpty_iff.2 h), fun limits => ?_⟩
    rw [recognize, if_neg hstarts, hvalues, Bool.not_true, if_neg Bool.false_ne_true]
    rfl
  · refine .inl fun limits => ?_
    rw [recognize, if_neg hstarts, Bool.eq_false_iff.2 hvalues, Bool.not_false, if_pos rfl]

/-- More assignments give more options, after the others. -/
theorem optionsOf_append (starts : List (Option Nat)) (found more : List Assignment) :
    optionsOf host rule starts found <+: optionsOf host rule starts (found ++ more) := by
  unfold optionsOf numberOptions
  rw [List.flatMap_append, List.zipIdx_append, List.map_append]
  exact List.prefix_append _ _

/-- There is one option for each assignment and place. -/
theorem length_optionsOf (starts : List (Option Nat)) (found : List Assignment) :
    (optionsOf host rule starts found).length = found.length * starts.length := by
  rw [← List.length_product, ← map_optionsOf, List.length_map]

/-! ## Recognition under shorter limits

One limit is relaxed after another, and each time the search under the tighter limits is cut
short for the reason that this limit stands for, or is the same. -/

/-- A bound is at most another one, where `none` is no bound. -/
def AtMost (bound bound' : Option Nat) : Prop :=
  ∀ larger, bound' = some larger → ∃ smaller, bound = some smaller ∧ smaller ≤ larger

/-- A bound is at most itself. -/
theorem AtMost.refl (bound : Option Nat) : AtMost bound bound :=
  fun larger h => ⟨larger, h, Nat.le_refl _⟩

/-- A bound that is at most another is the same, or there is a number and the other bound is no
less. -/
theorem AtMost.cases {bound bound' : Option Nat} (h : AtMost bound bound') :
    bound = bound' ∨
      ∃ smaller, bound = some smaller ∧ ∀ larger, bound' = some larger → smaller ≤ larger := by
  cases bound with
  | some smaller =>
    refine .inr ⟨smaller, rfl, fun larger hlarger => ?_⟩
    obtain ⟨_, ⟨⟩, hle⟩ := h larger hlarger
    exact hle
  | none =>
    cases bound' with
    | some larger => exact nomatch h larger rfl
    | none => exact .inl rfl

/-- No limit is larger than in other limits. Each of the three limits is compared by itself. -/
structure Limits.Tighter (limits limits' : Limits) : Prop where
  maxSteps : AtMost limits.maxSteps limits'.maxSteps
  maxOptions : AtMost limits.maxOptions limits'.maxOptions
  cancelled : limits'.cancelled = true → limits.cancelled = true

namespace Occurrence

variable {reason : RecognitionStatus}

/-- **A search under shorter limits comes out alike or is cut short.** -/
theorem run_cut (s : Occurrence) (h : limits.Shortens reason limits') :
    s.run limits = s.run limits' ∨ (s.run limits).CutFrom reason (s.run limits') :=
  search_cut h s.positivePlan s.unassigned {}

/-- A search under shorter limits leads to the other one. -/
theorem run_leadsTo (s : Occurrence) (h : limits.Shortens reason limits') :
    (s.run limits).LeadsTo (s.run limits') := by
  rcases s.run_cut h with heq | hcut
  · exact heq ▸ .refl _
  · exact hcut.leadsTo

/-- A larger budget of steps leads on. -/
theorem run_leadsTo_maxSteps (s : Occurrence) (limits : Limits) {bound bound' : Option Nat}
    (h : AtMost bound bound') :
    (s.run { limits with maxSteps := bound }).LeadsTo
      (s.run { limits with maxSteps := bound' }) := by
  rcases h.cases with rfl | ⟨budget, rfl, hle⟩
  · exact .refl _
  · exact s.run_leadsTo (limits.shortens_maxSteps _ _ hle)

/-- A larger number of options leads on. -/
theorem run_leadsTo_maxOptions (s : Occurrence) (limits : Limits) {bound bound' : Option Nat}
    (h : AtMost bound bound') :
    (s.run { limits with maxOptions := bound }).LeadsTo
      (s.run { limits with maxOptions := bound' }) := by
  rcases h.cases with rfl | ⟨count, rfl, hle⟩
  · exact .refl _
  · exact s.run_leadsTo (limits.shortens_maxOptions _ _ hle)

/-- So does taking back a request to cancel. -/
theorem run_leadsTo_cancelled (s : Occurrence) (limits : Limits) {cancelled cancelled' : Bool}
    (h : cancelled' = true → cancelled = true) :
    (s.run { limits with cancelled }).LeadsTo (s.run { limits with cancelled := cancelled' }) := by
  cases cancelled with
  | true => exact s.run_leadsTo (limits.shortens_cancelled cancelled')
  | false =>
    cases cancelled' with
    | true => exact nomatch h rfl
    | false => exact .refl _

/-- A search under tighter limits finds the first of the assignments. One limit is
relaxed after another. -/
theorem run_leadsTo_of_tighter (s : Occurrence) (h : limits.Tighter limits') :
    (s.run limits).LeadsTo (s.run limits') :=
  ((s.run_leadsTo_cancelled limits h.cancelled).trans
    (s.run_leadsTo_maxSteps { limits with cancelled := limits'.cancelled } h.maxSteps)).trans
    (s.run_leadsTo_maxOptions { limits' with maxOptions := limits.maxOptions } h.maxOptions)

end Occurrence

/-- The first options of fewer are the first of the first options of more. -/
theorem upTo_prefix {bound bound' : Option Nat} {options options' : List RuleOption}
    (h : AtMost bound bound') (hinit : options <+: options') :
    upTo bound options <+: upTo bound' options' := by
  cases bound' with
  | none =>
    cases bound with
    | none => exact hinit
    | some count => exact (List.take_prefix count options).trans hinit
  | some larger =>
    obtain ⟨count, rfl, hle⟩ := h larger rfl
    exact (hinit.take count).trans (List.take_prefix_take_left hle)

/-- **Larger limits do not remove or reorder an option.** -/
theorem options_prefix_of_tighter (host : Graph) (rule : GrammarRule)
    (h : limits.Tighter limits') :
    (recognize host rule limits).options <+: (recognize host rule limits').options := by
  rcases recognize_eq_searched_or host rule with hnothing | ⟨-, hsearched⟩
  · rw [hnothing, hnothing]
  · rw [hsearched, hsearched]
    obtain ⟨more, hmore⟩ := ((ofRule host rule).run_leadsTo_of_tighter h).found
    refine upTo_prefix h.maxOptions ?_
    rw [← hmore]
    exact optionsOf_append _ _ more

/-! ## A number of options

A number of options is a limit that leaves the status alone: to have found as many as one asked
for is to be complete. -/

/-- Without a budget and a request to cancel a search is complete. -/
theorem Occurrence.status_run_maxOptions (s : Occurrence) (maxOptions : Option Nat) :
    (s.run { maxOptions }).status = .complete := by
  have hjustified := s.run_justified { maxOptions }
  rw [Progress.status]
  cases hstop : (s.run { maxOptions }).stop with
  | none => rfl
  | some reason =>
    cases reason with
    | complete => rfl
    | cancelled => exact absurd (hjustified.requested hstop) Bool.false_ne_true
    | budgetExhausted =>
      obtain ⟨_, hbudget, -⟩ := hjustified.exceeded hstop
      cases hbudget

/-- Asked for a number of options, or for all, recognition is complete. -/
theorem status_maxOptions (host : Graph) (rule : GrammarRule) (maxOptions : Option Nat) :
    (recognize host rule { maxOptions }).status = .complete := by
  rcases recognize_eq_searched_or host rule with hnothing | ⟨-, hsearched⟩
  · rw [hnothing]
  · rw [hsearched]
    exact (ofRule host rule).status_run_maxOptions maxOptions

/-- **Asked for a number of options, recognition returns as many**, or all there
are. -/
theorem options_maxOptions (host : Graph) (rule : GrammarRule) (count : Nat) :
    (recognize host rule { maxOptions := some count }).options =
      (recognize host rule {}).options.take count := by
  rcases recognize_eq_searched_or host rule with hnothing | ⟨hstarts, hsearched⟩
  · rw [hnothing, hnothing, List.take_nil]
  rw [hsearched, hsearched]
  show (optionsOf host rule _ _).take count = (optionsOf host rule _ _).take count
  rcases (ofRule host rule).run_cut (Limits.shortens_maxOptions {} count none nofun) with heq | hcut
  · rw [heq]
  · -- enough were found, and each gives an option at least
    obtain ⟨_, ⟨⟩, henough⟩ := ((ofRule host rule).run_justified _).enough hcut.stop
    obtain ⟨more, hmore⟩ := hcut.leadsTo.found
    obtain ⟨rest, hrest⟩ : optionsOf host rule (globalLabelStarts rule host.globalLabels) _ <+: _ :=
      optionsOf_append _ _ more
    rw [← hmore, ← hrest, List.take_append_of_le_length]
    rw [length_optionsOf, Array.length_toList]
    exact henough.trans (Nat.le_mul_of_pos_right _ (List.length_pos_of_ne_nil hstarts))

/-! ## A budget of steps

A budget is noticed when it is exceeded, so a search that stops has counted one step more. -/

/-- A search comes to its end within a budget of steps, or it stops one step
beyond. -/
theorem Occurrence.run_maxSteps (s : Occurrence) (budget : Nat) (maxOptions : Option Nat) :
    (s.run { maxSteps := some budget, maxOptions } = s.run { maxOptions } ∧
        (s.run { maxOptions }).steps ≤ budget) ∨
      (s.run { maxSteps := some budget, maxOptions }).stop = some .budgetExhausted ∧
        (s.run { maxSteps := some budget, maxOptions }).steps = budget + 1 ∧
        budget < (s.run { maxOptions }).steps := by
  have hjustified := s.run_justified { maxSteps := some budget, maxOptions }
  rcases s.run_cut (Limits.shortens_maxSteps { maxOptions } budget none nofun) with heq | hcut
  · refine .inl ⟨heq, ?_⟩
    rw [heq] at hjustified
    exact hjustified.within (s.status_run_maxOptions maxOptions) budget rfl
  · obtain ⟨_, ⟨⟩, hsteps⟩ := hjustified.exceeded hcut.stop
    exact .inr ⟨hcut.stop, hsteps, hsteps.symm.trans_le hcut.leadsTo.steps⟩

/-- What a budget of steps makes of a recognition. If the budget lasts it makes no difference,
and otherwise the recognition gives up one step beyond it. The options it has found by then are
the first of all of them. -/
structure Recognition.CutAt (budget : Nat) (whole cut : Recognition) : Prop where
  lasts : whole.steps ≤ budget → cut = whole
  exceeded : budget < whole.steps → cut.status = .budgetExhausted ∧ cut.steps = budget + 1

/-- **A budget of steps makes no difference or is exceeded by one**, whatever number of
options is asked for. -/
theorem recognize_maxSteps (host : Graph) (rule : GrammarRule) (budget : Nat)
    (maxOptions : Option Nat) :
    Recognition.CutAt budget (recognize host rule { maxOptions })
      (recognize host rule { maxSteps := some budget, maxOptions }) := by
  rcases recognize_eq_searched_or host rule with hnothing | ⟨-, hsearched⟩
  · rw [hnothing, hnothing]
    exact ⟨fun _ => rfl, fun hlt => absurd hlt (Nat.not_lt_zero _)⟩
  rw [hsearched, hsearched]
  rcases (ofRule host rule).run_maxSteps budget maxOptions with ⟨heq, hle⟩ | ⟨hstop, hsteps, hlt⟩
  · refine ⟨fun _ => ?_, fun hlt => absurd hle (Nat.not_le.2 hlt)⟩
    rw [searched, searched, heq]
  · refine ⟨fun hle => absurd hle (Nat.not_le.2 hlt), fun _ => ⟨?_, hsteps⟩⟩
    show ((ofRule host rule).run { maxSteps := some budget, maxOptions }).status = _
    rw [Progress.status, hstop]
    rfl

/-- **Limits only cut a recognition short.** Without a budget a recognition is
complete, and if a number of options is asked for it returns as many of all options,
from the first on. A budget of steps makes no difference to it, or is exceeded by one
step and ends it as exhausted. Under limits that are tighter, in whatever way, the
options are the first of those under the others, so larger limits do not remove or
reorder an option. -/
theorem recognize_limited (host : Graph) (rule : GrammarRule) :
    (∀ maxOptions, (recognize host rule { maxOptions }).status = .complete) ∧
      (∀ count, (recognize host rule { maxOptions := some count }).options =
        (recognize host rule {}).options.take count) ∧
      (∀ budget maxOptions, Recognition.CutAt budget (recognize host rule { maxOptions })
        (recognize host rule { maxSteps := some budget, maxOptions })) ∧
      ∀ limits limits' : Limits, limits.Tighter limits' →
        (recognize host rule limits).options <+: (recognize host rule limits').options :=
  ⟨status_maxOptions host rule, options_maxOptions host rule, recognize_maxSteps host rule,
    fun _ _ => options_prefix_of_tighter host rule⟩

/-- The edge is met along the arc within two steps, and the third step is one too
many. -/
theorem recognize_limited_removeEdge :
    Limits.Tighter { maxSteps := some 2, maxOptions := some 3 } { maxOptions := some 3 } ∧
      (recognize (.edge true) .removeEdge
          { maxSteps := some 2, maxOptions := some 3 }).status = .budgetExhausted ∧
      (recognize (.edge true) .removeEdge { maxSteps := some 2, maxOptions := some 3 }).steps = 3 ∧
      (recognize (.edge true) .removeEdge
          { maxSteps := some 2, maxOptions := some 3 }).options <+:
        (recognize (.edge true) .removeEdge { maxOptions := some 3 }).options := by
  obtain ⟨-, -, hbudget, htighter⟩ := recognize_limited (.edge true) .removeEdge
  have htight : Limits.Tighter { maxSteps := some 2, maxOptions := some 3 }
      { maxOptions := some 3 } :=
    ⟨nofun, .refl _, id⟩
  have hlong : 2 < (recognize (.edge true) .removeEdge { maxOptions := some 3 }).steps := by
    decide +kernel
  obtain ⟨hstatus, hsteps⟩ := (hbudget 2 (some 3)).exceeded hlong
  exact ⟨htight, hstatus, hsteps, htighter _ _ htight⟩

/-! ## One option -/

/-- **Asked for one option, recognition returns one if the rule has a match**, and none
otherwise. -/
theorem recognize_one_iff (hhost : host.WellFormed) (hrule : rule.Coherent) :
    (recognize host rule { maxOptions := some 1 }).options ≠ [] ↔
      rule.GlobalsMet host ∧ ∃ a, rule.Matches host a := by
  rw [options_maxOptions, Ne, List.take_eq_nil_iff, not_or, and_iff_right Nat.one_ne_zero,
    ← List.map_eq_nil_iff (f := fun o : RuleOption => o.toAssignment),
    List.eq_nil_iff_forall_not_mem, not_forall_not, ← exists_and_left]
  exact exists_congr fun a => mem_map_options_iff hhost hrule

end GraphGrammar
