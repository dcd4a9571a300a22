import GraphGrammar.Design.Run
import GraphGrammar.Proofs.FreeEnds
import GraphGrammar.Proofs.Persistence
import GraphGrammar.Proofs.RuleSet

/-!
# One cycle of a run

In a cycle the chosen options are gone through one by one. `Dealt` says what can
become of one of them: it is skipped as it conflicts with an option applied
before, it is refused as stale and the graph is left alone, or it is applied.
There is no fourth way (`RunState.applyChosen_dealt`), because an option that was
recognized in a graph keeps its shape and its distinct images whatever becomes of
that graph.

`RunState.Grows` is what a run does to the books in any case, whatever rules and
graphs there are: recipe and diagnostics grow at their ends, and the counters by
as much.

Both descriptions are relations between states, and a run is a chain of cycles.
`GraphGrammar.Proofs.Run` makes the induction on that chain and needs nothing from here but the
two of them.
-/

namespace GraphGrammar

variable {rules : RuleSet} {rule : GrammarRule} {s s' s'' : RunState} {earlier : List RuleOption}
  {o : RuleOption}

/-! ## The books

What the books say does not depend on whether an application succeeds. So they can be followed
without any assumption on rules, options or the graph, and the bounds on how often a rule is
applied hold for every run. -/

/-- **What a run does to the books**: it puts steps behind the recipe, each for a rule of the
set, and counts them, and it counts its cycles. Of the graph it says nothing, and so it holds
whatever became of the options. -/
structure RunState.Grows (rules : RuleSet) (s s' : RunState) (steps : List RecipeStep)
    (cycles : Nat) : Prop where
  recipe : s'.candidate.recipe = s.candidate.recipe ++ steps
  generation : s'.candidate.generation = s.candidate.generation + cycles
  performance : s'.candidate.performance = s.candidate.performance
  applied : s'.report.applied = s.report.applied + steps.length
  cycles : s'.report.cycles = s.report.cycles + cycles
  diagnostics : s.report.diagnostics <+: s'.report.diagnostics
  numbers : ∀ step ∈ steps, step.ruleNumber < rules.size
  applications_length : s'.applications.length = s.applications.length
  applicationsOf : ∀ n < s.applications.length,
    s'.applicationsOf n = s.applicationsOf n + steps.countP (·.ruleNumber == n)

namespace RunState

/-- Where nothing happens nothing is put down. -/
theorem Grows.refl (rules : RuleSet) (s : RunState) : Grows rules s s [] 0 where
  recipe := (List.append_nil _).symm
  generation := rfl
  performance := rfl
  applied := rfl
  cycles := rfl
  diagnostics := List.prefix_rfl
  numbers _ h := nomatch h
  applications_length := rfl
  applicationsOf _ _ := rfl

/-- What is put down is put down behind what was there, so it adds up. -/
theorem Grows.trans {steps steps' : List RecipeStep} {n n' : Nat} (h : Grows rules s s' steps n)
    (h' : Grows rules s' s'' steps' n') : Grows rules s s'' (steps ++ steps') (n + n') where
  recipe := by rw [h'.recipe, h.recipe, List.append_assoc]
  generation := by rw [h'.generation, h.generation, Nat.add_assoc]
  performance := h'.performance.trans h.performance
  applied := by rw [h'.applied, h.applied, List.length_append, Nat.add_assoc]
  cycles := by rw [h'.cycles, h.cycles, Nat.add_assoc]
  diagnostics := h.diagnostics.trans h'.diagnostics
  numbers step hstep := (List.mem_append.1 hstep).elim (h.numbers step) (h'.numbers step)
  applications_length := h'.applications_length.trans h.applications_length
  applicationsOf m hm := by
    rw [h'.applicationsOf m (h.applications_length ▸ hm), h.applicationsOf m hm,
      List.countP_append, Nat.add_assoc]

/-- A remark, and whatever becomes of the graph, leave the books as they are. -/
theorem grows_diagnose (rules : RuleSet) (s : RunState) (graph : Graph)
    (remarks : List Diagnostic) :
    Grows rules s
      (diagnose { s with candidate := { s.candidate with graph } } remarks) [] 0 :=
  { Grows.refl rules s with diagnostics := List.prefix_append .. }

/-- The end of a cycle counts it. -/
theorem grows_endCycle (rules : RuleSet) (s : RunState) : Grows rules s s.endCycle [] 1 :=
  { Grows.refl rules s with generation := rfl, cycles := rfl }

/-- What is put down for an application. -/
theorem recordApplication_eq (s : RunState) (rules : RuleSet) (rule : GrammarRule)
    (o : RuleOption) : ∃ remarks, s.recordApplication rules rule o =
      { candidate := { s.candidate with recipe := s.candidate.recipe ++ [.of rule o] }
        report := { s.report with
          applied := s.report.applied + 1
          diagnostics := s.report.diagnostics ++ remarks }
        applications := s.applications.modify o.ruleNumber (· + 1) } ∧
      ∀ remark ∈ remarks, remark = .ruleLimitReached rules.index o.ruleNumber := by
  unfold recordApplication
  dsimp only
  split
  · exact ⟨_, rfl, fun remark hremark => List.mem_singleton.1 hremark⟩
  · refine ⟨[], ?_, fun _ h => nomatch h⟩
    rw [List.append_nil]

/-- An application is one step of its rule. -/
theorem grows_recordApplication (hrule : rules.rule? o.ruleNumber = some rule) (s : RunState) :
    Grows rules s (s.recordApplication rules rule o) [.of rule o] 0 := by
  obtain ⟨remarks, heq, -⟩ := s.recordApplication_eq rules rule o
  rw [heq]
  refine { Grows.refl rules s with
    recipe := rfl
    applied := rfl
    diagnostics := List.prefix_append ..
    numbers := fun step hstep => ?_
    applications_length := List.length_modify ..
    applicationsOf := fun n hn => ?_ }
  · cases List.mem_singleton.1 hstep
    exact (List.getElem?_eq_some_iff.1 hrule).1
  · show ((s.applications.modify o.ruleNumber (· + 1))[n]?).getD 0
      = (s.applications[n]?).getD 0 + _
    rw [List.getElem?_modify, List.getElem?_eq_getElem hn, List.countP_singleton]
    show _ = s.applications[n] + if (o.ruleNumber == n) = true then 1 else 0
    simp only [beq_iff_eq]
    split <;> rfl

/-- One chosen option makes one step at most, and that step is its own. -/
theorem grows_applyChosen (rules : RuleSet) (s : RunState) (earlier : List RuleOption)
    (o : RuleOption) : ∃ steps, Grows rules s (applyChosen rules (s, earlier) o).1 steps 0 ∧
      (steps = [] ∨ ∃ rule, steps = [.of rule o]) := by
  unfold applyChosen
  dsimp only
  split
  · exact ⟨[], grows_diagnose rules s s.candidate.graph _, .inl rfl⟩
  split
  · exact ⟨[], .refl rules s, .inl rfl⟩
  rename_i rule hrule
  split
  · exact ⟨[], grows_diagnose rules s _ _, .inl rfl⟩
  · exact ⟨_, (grows_diagnose rules s _ _).trans (grows_recordApplication hrule _),
      .inr ⟨rule, rfl⟩⟩

/-- The chosen options make their steps one after another. -/
theorem grows_foldl_applyChosen (rules : RuleSet) :
    ∀ (chosen : List RuleOption) (s : RunState) (earlier : List RuleOption),
      ∃ steps, Grows rules s (chosen.foldl (applyChosen rules) (s, earlier)).1 steps 0 ∧
        ∀ n, steps.countP (·.ruleNumber == n) ≤ chosen.countP (·.ruleNumber == n)
  | [], s, _ => ⟨[], .refl rules s, fun _ => Nat.le_refl _⟩
  | o :: rest, s, earlier => by
    obtain ⟨first, hfirst, hcases⟩ := grows_applyChosen rules s earlier o
    obtain ⟨others, hothers, hcount⟩ := grows_foldl_applyChosen rules rest
      (applyChosen rules (s, earlier) o).1 (applyChosen rules (s, earlier) o).2
    refine ⟨first ++ others, hfirst.trans hothers, fun n => ?_⟩
    have hone : first.countP (·.ruleNumber == n) ≤ [o].countP (·.ruleNumber == n) := by
      rcases hcases with rfl | ⟨rule, rfl⟩
      · exact Nat.zero_le _
      · exact Nat.le_refl _
    calc (first ++ others).countP (·.ruleNumber == n)
        = first.countP (·.ruleNumber == n) + others.countP (·.ruleNumber == n) :=
          List.countP_append
      _ ≤ [o].countP (·.ruleNumber == n) + rest.countP (·.ruleNumber == n) :=
          Nat.add_le_add hone (hcount n)
      _ = (o :: rest).countP (·.ruleNumber == n) := List.countP_append.symm

end RunState

/-! ## What becomes of a chosen option

An option that was chosen was recognized in the graph at the beginning of the cycle. By the time
it is its turn, others may have been applied. That it is of a shape for its rule, and that its
images are distinct, is still so, and with that an application can fail for being stale only. -/

/-- **What becomes of one chosen option**, which stands at a place among those that were offered:
the states before it and after it, each with the options that were applied in the cycle so far.
The three cases exclude one
another, and each tells what it does to the candidate and to the report. -/
inductive Dealt (rules : RuleSet) (place : Nat) (o : RuleOption) :
    RunState × List RuleOption → RunState × List RuleOption → Prop
  /-- It conflicts with an option applied before, and that is reported. -/
  | skipped {s : RunState} {earlier : List RuleOption}
      (hconflict : ∃ e ∈ earlier, areConfluent e o = false) :
      Dealt rules place o (s, earlier) (s.diagnose [.conflictSkipped place], earlier)
  /-- It is stale. That is reported, and the graph is left alone. -/
  | refused {s : RunState} {earlier : List RuleOption} {rule : GrammarRule}
      {failure : Report ApplyError} (hconfluent : ∀ e ∈ earlier, areConfluent e o = true)
      (hrule : rules.rule? o.ruleNumber = some rule)
      (happly : apply s.candidate.graph rule o = ⟨s.candidate.graph, .error failure⟩)
      (hcause : failure.cause = .staleOption) :
      Dealt rules place o (s, earlier)
        (s.diagnose [.optionNotApplied place (ApplyError.text .staleOption)], earlier)
  /-- It is applied, and a step is put down for it. -/
  | applied {s s' : RunState} {earlier : List RuleOption} {rule : GrammarRule}
      {report : ApplyReport} {remarks : List Diagnostic}
      (hconfluent : ∀ e ∈ earlier, areConfluent e o = true)
      (hrule : rules.rule? o.ruleNumber = some rule)
      (happly : (apply s.candidate.graph rule o).result = .ok report)
      (hcandidate : s'.candidate = { s.candidate with
        graph := (apply s.candidate.graph rule o).host
        recipe := s.candidate.recipe ++ [.of rule o] })
      (hreport : s'.report = { s.report with
        applied := s.report.applied + 1
        diagnostics := s.report.diagnostics ++ remarks })
      (hremarks : ∀ remark ∈ remarks, (∃ arc name freed, remark = .danglingEnd arc name freed) ∨
        remark = .ruleLimitReached rules.index o.ruleNumber) :
      Dealt rules place o (s, earlier) (s', earlier ++ [o])

/-- Options that are applied in a cycle are confluent with those before them. -/
theorem Dealt.pairwise {place : Nat} {before after : RunState × List RuleOption}
    (h : Dealt rules place o before after)
    (hbefore : before.2.Pairwise fun a b => areConfluent a b = true) :
    after.2.Pairwise fun a b => areConfluent a b = true := by
  cases h with
  | skipped => exact hbefore
  | refused => exact hbefore
  | applied hconfluent =>
    refine List.pairwise_append.2 ⟨hbefore, List.pairwise_singleton .., fun e he other hother => ?_⟩
    exact List.mem_singleton.1 hother ▸ hconfluent e he

/-- **An option that was recognized at some time is dealt with in one of the three ways**, and
the graph is well formed again. So the graph of a run is well formed at every moment, and a
refusal costs a remark. -/
theorem RunState.applyChosen_dealt {place : Nat} (hgraph : s.candidate.graph.WellFormed)
    (hplace : o.optionNumber = place) (hrule : rules.rule? o.ruleNumber = some rule)
    (hcoherent : rule.Coherent) (hshaped : o.toAssignment.Shaped rule.l)
    (hdistinct : o.toAssignment.Distinct) :
    Dealt rules place o (s, earlier) (applyChosen rules (s, earlier) o) ∧
      (applyChosen rules (s, earlier) o).1.candidate.graph.WellFormed := by
  unfold applyChosen
  dsimp only
  rw [hplace, hrule]
  dsimp only
  by_cases hconflict : (earlier.any (!areConfluent · o)) = true
  · rw [if_pos hconflict]
    refine ⟨.skipped ?_, hgraph⟩
    simpa using hconflict
  rw [if_neg hconflict]
  have hconfluent : ∀ e ∈ earlier, areConfluent e o = true := by simpa using hconflict
  -- the option has the shape and distinct images, so it can only be refused as stale
  rcases apply_of_shaped hgraph hcoherent hshaped hdistinct with
    ⟨failure, happly, hcause⟩ | ⟨report, hresult, hwellFormed⟩
  · rw [happly]
    dsimp only
    rw [hcause]
    exact ⟨.refused hconfluent hrule happly hcause, hgraph⟩
  · rw [hresult]
    dsimp only
    obtain ⟨limits, hrecord, hlimits⟩ := recordApplication_eq (diagnose { s with
      candidate := { s.candidate with graph := (apply s.candidate.graph rule o).host } }
        report.diagnostics) rules rule o
    rw [hrecord]
    have hremarks : ∀ remark ∈ report.diagnostics ++ limits,
        (∃ arc name freed, remark = .danglingEnd arc name freed) ∨
          remark = .ruleLimitReached rules.index o.ruleNumber := fun remark hremark =>
      (List.mem_append.1 hremark).imp (apply_reports_danglingEnds hresult remark) (hlimits remark)
    refine ⟨.applied hconfluent hrule hresult rfl ?_ hremarks, hwellFormed⟩
    rw [← List.append_assoc]
    rfl

/-! ## Cycles

A cycle is described by what the chooser was given and what it answered. The chooser is a
parameter with a state of its own, so nothing is known of its answer but that it picks from what
was offered. -/

/-- A cycle of a run: the state at its beginning, and what the chooser was offered and answered.
Nothing is assumed of it; that it is one that a run went through is `Cycle.Valid`. -/
structure Cycle (σ : Type) where
  before : RunState
  /-- The state of the chooser when it was asked. -/
  asked : σ
  offered : List RuleOption
  choice : List Nat
  /-- The state of the chooser since. -/
  answered : σ

/-- What the rules that have not reached their limits are recognized with at the
beginning of a cycle. -/
def RunState.recognized {σ : Type} (s : RunState) (rules : RuleSet) (chooser : Chooser σ)
    (config : RunConfig) (asked : σ) : Recognition :=
  rules.recognizeWhere s.candidate.graph
    { config.limits with cancelled := config.limits.cancelled || chooser.cancels asked }
    (s.enabled rules)

namespace Cycle

variable {σ : Type} {chooser : Chooser σ} {config : RunConfig} {c : Cycle σ}

/-- **A cycle that the run went through**: recognition was complete, and the
chooser picked something, from what was there. -/
structure Valid (rules : RuleSet) (chooser : Chooser σ) (config : RunConfig) (c : Cycle σ) :
    Prop where
  complete : (c.before.recognized rules chooser config c.asked).status = .complete
  offered : (c.before.recognized rules chooser config c.asked).options = c.offered
  chosen : chooser.choose c.asked c.offered c.before.candidate = (c.choice, c.answered)
  nonempty : c.choice ≠ []
  inRange : ∀ place ∈ c.choice, place < c.offered.length

/-- The choice as far as it is acted on: all of it, or the first place only. -/
def places (config : RunConfig) (c : Cycle σ) : List Nat :=
  if config.applyAllChosen then c.choice else c.choice.take 1

/-- The state after so many of the chosen options, with those of them that were
applied. -/
def progress (rules : RuleSet) (config : RunConfig) (c : Cycle σ) (k : Nat) :
    RunState × List RuleOption :=
  (((c.places config).take k).filterMap (c.offered[·]?)).foldl (RunState.applyChosen rules)
    (c.before, [])

/-- The state when all of them have been dealt with. -/
def after (rules : RuleSet) (config : RunConfig) (c : Cycle σ) : RunState :=
  (c.progress rules config (c.places config).length).1.endCycle

/-- **A cycle is accounted for**: each chosen option was dealt with in its turn, at a place where
it was offered, and those that were applied are pairwise confluent. Read along the list of chosen
places, it is a trace of the cycle. -/
structure Accounted (rules : RuleSet) (config : RunConfig) (c : Cycle σ) : Prop where
  dealt : ∀ k place, (c.places config)[k]? = some place → ∃ o, c.offered[place]? = some o ∧
    o.optionNumber = place ∧
    Dealt rules place o (c.progress rules config k) (c.progress rules config (k + 1))
  confluent : (c.progress rules config (c.places config).length).2.Pairwise
    fun a b => areConfluent a b = true

/-- What is acted on was chosen. -/
theorem places_subset (config : RunConfig) (c : Cycle σ) : c.places config ⊆ c.choice := by
  unfold places
  split
  · exact List.Subset.refl _
  · exact List.take_subset ..

/-- The next of the chosen options is dealt with in the state that the earlier ones left. -/
theorem progress_succ {k place : Nat} (hplace : (c.places config)[k]? = some place)
    (ho : c.offered[place]? = some o) : c.progress rules config (k + 1)
      = RunState.applyChosen rules (c.progress rules config k) o := by
  unfold progress
  rw [List.take_add_one, hplace, List.filterMap_append, List.foldl_append]
  simp [ho]

/-- **A cycle puts down as many steps of a rule as options of it were chosen**, or fewer. -/
theorem grows_after (rules : RuleSet) (config : RunConfig) (c : Cycle σ) :
    ∃ steps, RunState.Grows rules c.before (c.after rules config) steps 1 ∧
      ∀ n, steps.countP (·.ruleNumber == n)
        ≤ ((c.places config).filterMap (c.offered[·]?)).countP (·.ruleNumber == n) := by
  obtain ⟨steps, hsteps, hcount⟩ := RunState.grows_foldl_applyChosen rules
    (((c.places config).take (c.places config).length).filterMap (c.offered[·]?)) c.before []
  rw [List.take_length] at hcount
  refine ⟨steps, ?_, hcount⟩
  have hend := hsteps.trans (RunState.grows_endCycle rules _)
  rwa [List.append_nil] at hend

variable (hvalid : c.Valid rules chooser config) (hgraph : c.before.candidate.graph.WellFormed)
  (hbuilt : ∀ rule ∈ rules.rules, rule.Built)

include hvalid hgraph hbuilt

/-- An offered option is dealt with, however far the cycle has got. -/
theorem dealt_of_offered {k place : Nat} (hplace : (c.places config)[k]? = some place)
    (hk : (c.progress rules config k).1.candidate.graph.WellFormed) :
    ∃ o, c.offered[place]? = some o ∧ o.optionNumber = place ∧
      Dealt rules place o (c.progress rules config k) (c.progress rules config (k + 1)) ∧
      (c.progress rules config (k + 1)).1.candidate.graph.WellFormed := by
  have hlt := hvalid.inRange place (c.places_subset config (List.mem_of_getElem? hplace))
  obtain ⟨o, ho⟩ : ∃ o, c.offered[place]? = some o := ⟨_, List.getElem?_eq_getElem hlt⟩
  obtain ⟨hnumber, -, rule, hrule, hoffers⟩ :=
    RuleSet.offers_of_recognizeWhere (hvalid.offered ▸ ho)
  have hcoherent := (hbuilt rule (List.mem_of_getElem? hrule)).coherent
  have hoccurs := (hoffers.matches hgraph hcoherent).1.occurs
  refine ⟨o, ho, hnumber, ?_⟩
  rw [progress_succ hplace ho]
  exact RunState.applyChosen_dealt hk hnumber hrule hcoherent hoccurs.shaped hoccurs.distinct

/-- The graph is well formed and the applied options are confluent throughout. -/
theorem progress_keeps (k : Nat) : (c.progress rules config k).1.candidate.graph.WellFormed ∧
    (c.progress rules config k).2.Pairwise fun a b => areConfluent a b = true := by
  induction k with
  | zero => exact ⟨hgraph, .nil⟩
  | succ k ih =>
    cases hplace : (c.places config)[k]? with
    | none =>
      -- there is nothing left to deal with
      have hsame : c.progress rules config (k + 1) = c.progress rules config k := by
        unfold progress
        rw [List.take_add_one, hplace, Option.toList_none, List.append_nil]
      rwa [hsame]
    | some place =>
      obtain ⟨o, -, -, hdealt, hwellFormed⟩ := dealt_of_offered hvalid hgraph hbuilt hplace ih.1
      exact ⟨hwellFormed, hdealt.pairwise ih.2⟩

/-- **Every cycle is accounted for.** -/
theorem accounted : c.Accounted rules config where
  dealt k place hplace := by
    obtain ⟨o, ho, hnumber, hdealt, -⟩ := dealt_of_offered hvalid hgraph hbuilt hplace
      (progress_keeps hvalid hgraph hbuilt k).1
    exact ⟨o, ho, hnumber, hdealt⟩
  confluent := (progress_keeps hvalid hgraph hbuilt _).2

/-- The graph is well formed when the cycle is over. -/
theorem wellFormed_after : (c.after rules config).candidate.graph.WellFormed :=
  (progress_keeps hvalid hgraph hbuilt (c.places config).length).1

end Cycle

end GraphGrammar
