import GraphGrammar.Proofs.Replay
import GraphGrammar.Proofs.UnplacedApplication
import GraphGrammar.Proofs.UnplacedRecognition

/-!
# Runs do not look at positions

Two runs that begin with candidates and rule sets that are equal up to positions go
through the same cycles, apply the same options and end for the same reason, with
candidates that are equal up to positions again (`runCycles_unplaced`), if the chooser
does not look at positions. Each cycle recognizes the same options but for the
transforms they carry, so the places that are chosen mean the same in both runs, and an
application leads from hosts that are equal up to positions to such hosts. What is
counted and put down on the way does not depend on positions at all.

Nothing is asked of the coordinates. They are compared nowhere, so they may as well be
infinite or no numbers.
-/

namespace GraphGrammar

/-! ## Runs under way

A run has its positions in the graph of the candidate and nowhere else. -/

/-- The candidate with the nodes of its graph at the origin. -/
def Candidate.unplaced (c : Candidate) : Candidate := { c with graph := c.graph.unplaced }

/-- A chooser that makes the same choice wherever the nodes are put. -/
def Chooser.IgnoresPositions {σ : Type} (chooser : Chooser σ) : Prop :=
  ∀ state options candidate, chooser.choose state (options.map RuleOption.unplaced)
    candidate.unplaced = chooser.choose state options candidate

/-- A script does not look at anything. -/
theorem Chooser.scripted_ignoresPositions : Chooser.scripted.IgnoresPositions :=
  fun _ _ _ => rfl

@[simp] theorem RuleSet.unplaced_unplaced (rules : RuleSet) :
    rules.unplaced.unplaced = rules.unplaced := by
  unfold unplaced
  rw [List.map_map]
  exact congrArg ({ rules with rules := · })
    (List.map_congr_left fun (rule : GrammarRule) _ => rule.unplaced_unplaced)

/-- A rule is looked up by its number, and rules keep their places. -/
theorem RuleSet.rule?_unplaced (rules : RuleSet) (number : Nat) :
    rules.unplaced.rule? number = (rules.rule? number).map GrammarRule.unplaced :=
  List.getElem?_map

/-- Options that are equal up to positions are applied alike to hosts that are. -/
theorem apply_congr (rule : GrammarRule) {host host' : Graph} {o o' : RuleOption}
    (hhost : host'.unplaced = host.unplaced) (ho : o'.unplaced = o.unplaced) :
    (apply host' rule.unplaced o').unplaced = (apply host rule o).unplaced := by
  rw [← apply_unplaced rule.unplaced, ← apply_unplaced rule, hhost, ho, rule.unplaced_unplaced]

namespace RunState

/-- The run with the nodes of its graph at the origin. -/
def unplaced (s : RunState) : RunState := { s with candidate := s.candidate.unplaced }

variable (rules : RuleSet) {s s' : RunState}

/-- Diagnostics name keys and rules. -/
theorem diagnose_congr (hs : s'.unplaced = s.unplaced) (diagnostics : List Diagnostic) :
    (s'.diagnose diagnostics).unplaced = (s.diagnose diagnostics).unplaced :=
  congrArg (diagnose · diagnostics) hs

/-- A recipe records keys, so it is the same. -/
theorem recordApplication_unplaced (s : RunState) (rule : GrammarRule) (o : RuleOption) :
    (s.recordApplication rules rule o).unplaced
      = s.unplaced.recordApplication rules.unplaced rule.unplaced o.unplaced := by
  unfold recordApplication
  dsimp only
  split
  · rename_i hlimit
    rw [if_pos (by exact hlimit)]
    rfl
  · rename_i hlimit
    rw [if_neg (by exact hlimit)]
    rfl

/-- **A chosen option meets the same fate wherever the nodes are put.** It is skipped in both
runs, or refused in both for the same reason, or applied in both with hosts that are equal up to
positions. -/
theorem applyChosen_congr {earlier earlier' : List RuleOption} {o o' : RuleOption}
    (hs : s'.unplaced = s.unplaced)
    (hearlier : earlier'.map RuleOption.unplaced = earlier.map RuleOption.unplaced)
    (ho : o'.unplaced = o.unplaced) :
    (applyChosen rules.unplaced (s', earlier') o').1.unplaced
        = (applyChosen rules (s, earlier) o).1.unplaced ∧
      (applyChosen rules.unplaced (s', earlier') o').2.map RuleOption.unplaced
        = (applyChosen rules (s, earlier) o).2.map RuleOption.unplaced := by
  have hany : ∀ (earlier : List RuleOption) (o : RuleOption), earlier.any (!areConfluent · o)
      = (earlier.map RuleOption.unplaced).any (!areConfluent · o.unplaced) :=
    fun earlier o => by rw [List.any_map]; rfl
  -- whether the option conflicts with those before it, and which rule it is of, does not depend
  -- on placements
  have hconflict : earlier'.any (!areConfluent · o') = earlier.any (!areConfluent · o) := by
    rw [hany, hearlier, ho, ← hany]
  have hrule : o'.ruleNumber = o.ruleNumber :=
    show o'.unplaced.ruleNumber = o.unplaced.ruleNumber by rw [ho]
  have hnumber : o'.optionNumber = o.optionNumber :=
    show o'.unplaced.optionNumber = o.unplaced.optionNumber by rw [ho]
  unfold applyChosen
  dsimp only
  rw [hconflict, hrule, hnumber, RuleSet.rule?_unplaced]
  split
  · exact ⟨diagnose_congr hs [.conflictSkipped o.optionNumber], hearlier⟩
  cases rules.rule? o.ruleNumber with
  | none => exact ⟨hs, hearlier⟩
  | some rule =>
    dsimp only [Option.map_some]
    have happlied := apply_congr rule
      (congrArg (fun s : RunState => s.candidate.graph) hs : s'.unplaced.candidate.graph = _) ho
    generalize apply s'.candidate.graph rule.unplaced o' = done',
      apply s.candidate.graph rule o = done at happlied ⊢
    obtain ⟨host', result'⟩ := done'
    obtain ⟨host, result⟩ := done
    obtain ⟨hhost, rfl⟩ := Application.mk.inj happlied
    have hnext : RunState.unplaced
        { s' with candidate := { s'.candidate with graph := host' } }
        = RunState.unplaced { s with candidate := { s.candidate with graph := host } } :=
      congrArg₂ (fun (s : RunState) graph =>
        { s with candidate := { s.candidate with graph } }) hs hhost
    cases result' with
    | error failure =>
      exact ⟨diagnose_congr hnext [.optionNotApplied o.optionNumber failure.cause.text], hearlier⟩
    | ok report =>
      dsimp only
      refine ⟨?_, ?_⟩
      · rw [recordApplication_unplaced, recordApplication_unplaced, rule.unplaced_unplaced,
          rules.unplaced_unplaced, ho]
        exact congrArg (fun s : RunState => (s.diagnose report.diagnostics).recordApplication
          rules.unplaced rule.unplaced o.unplaced) hnext
      · rw [List.map_append, List.map_append, hearlier, List.map_singleton, List.map_singleton, ho]

/-- The options chosen in one cycle, one after the other, by induction on those that are left. -/
theorem applyAll_congr (rules : RuleSet) : ∀ {chosen chosen' : List RuleOption} {s s' : RunState}
    {earlier earlier' : List RuleOption},
    chosen'.map RuleOption.unplaced = chosen.map RuleOption.unplaced → s'.unplaced = s.unplaced →
    earlier'.map RuleOption.unplaced = earlier.map RuleOption.unplaced →
    (chosen'.foldl (applyChosen rules.unplaced) (s', earlier')).1.unplaced
      = (chosen.foldl (applyChosen rules) (s, earlier)).1.unplaced
  | [], [], _, _, _, _, _, hs, _ => hs
  | o :: rest, o' :: rest', s, s', earlier, earlier', hchosen, hs, hearlier => by
    obtain ⟨ho, hrest⟩ := List.cons.inj hchosen
    obtain ⟨happlied, hlisted⟩ := applyChosen_congr rules hs hearlier ho
    rw [List.foldl_cons, List.foldl_cons]
    exact applyAll_congr rules hrest happlied hlisted

/-- What is shown to the chooser is equal up to positions. -/
theorem recognized_congr {σ : Type} (hs : s'.unplaced = s.unplaced) (chooser : Chooser σ)
    (config : RunConfig) (asked : σ) :
    (s'.recognized rules.unplaced chooser config asked).unplaced
      = (s.recognized rules chooser config asked).unplaced := by
  have hgraph : s'.candidate.graph.unplaced = s.candidate.graph.unplaced :=
    congrArg (fun s : RunState => s.candidate.graph) hs
  have henabled : s'.enabled rules.unplaced = s.enabled rules := by
    show s'.unplaced.enabled rules = s.unplaced.enabled rules
    rw [hs]
  unfold recognized
  rw [henabled, ← RuleSet.recognizeWhere_unplaced rules.unplaced, rules.unplaced_unplaced, hgraph,
    RuleSet.recognizeWhere_unplaced]

end RunState

/-! ## Cycles

The recursion on the cycles that are left is followed in both runs at once. -/

section

variable {σ : Type} {chooser : Chooser σ} {rules : RuleSet}

/-- The run with the nodes of its graph at the origin. -/
def Run.unplaced (done : Run σ) : Run σ := { done with candidate := done.candidate.unplaced }

/-- **Runs that are equal up to positions end equal up to positions**, by induction on the cycles
that are left. Where the runs end, and whether a choice is valid, depends on how many options
there are and on what the chooser says. -/
theorem runCycles_unplaced (hignores : chooser.IgnoresPositions) (config : RunConfig) (n : Nat) :
    ∀ (s s' : RunState) (asked : σ), s'.unplaced = s.unplaced →
      (runCycles rules.unplaced chooser config n s' asked).unplaced
        = (runCycles rules chooser config n s asked).unplaced := by
  have hfinish : ∀ {s s' : RunState}, s'.unplaced = s.unplaced → ∀ (asked : σ) reason,
      (s'.finish asked reason).unplaced = (s.finish asked reason).unplaced :=
    fun hs asked reason => congrArg (RunState.finish · asked reason) hs
  induction n with
  | zero => exact fun s s' asked hs => hfinish hs asked .maxCycles
  | succ n ih =>
    intro s s' asked hs
    -- what is recognized differs in placements only, so all that the run decides by is the same
    obtain ⟨hoptions, hstatus, -⟩ :=
      Recognition.unplaced_eq_iff.1 (RunState.recognized_congr rules hs chooser config asked)
    by_cases hcomplete : (s.recognized rules chooser config asked).status = .complete
    case neg =>
      have hcycle : s'.report.cycles = s.report.cycles :=
        show s'.unplaced.report.cycles = s.unplaced.report.cycles by rw [hs]
      rw [runCycles_of_incomplete n hcomplete, runCycles_of_incomplete n (hstatus ▸ hcomplete),
        hstatus]
      dsimp only
      rw [hcycle]
      split
      · exact hfinish hs asked .cancelled
      · exact hfinish (RunState.diagnose_congr hs _) asked .budgetExhausted
    case pos =>
      rw [runCycles_of_complete n hcomplete, runCycles_of_complete n (hstatus.trans hcomplete)]
      generalize (s'.recognized rules.unplaced chooser config asked).options = offered',
        (s.recognized rules chooser config asked).options = offered at hoptions ⊢
      have hlength : offered'.length = offered.length := by
        rw [← List.length_map (f := RuleOption.unplaced), hoptions, List.length_map]
      have hempty : offered'.isEmpty = offered.isEmpty := by
        rw [← List.isEmpty_map (f := RuleOption.unplaced), hoptions, List.isEmpty_map]
      -- the chooser ignores positions, so it answers alike
      have hanswer : chooser.choose asked offered' s'.candidate
          = chooser.choose asked offered s.candidate := by
        rw [← hignores asked offered', ← hignores asked offered, hoptions]
        exact congrArg (fun s : RunState => chooser.choose asked _ s.candidate) hs
      dsimp only
      rw [hempty, hlength, hanswer]
      generalize chooser.choose asked offered s.candidate = answer
      split
      · exact hfinish hs asked .noOptions
      split
      · exact hfinish hs answer.2 .chooserStopped
      cases answer.1.find? (offered.length ≤ ·) with
      | some index =>
        exact congrArg (fun s : RunState => Run.mk s.candidate answer.2
          (.fail (.invalidChoice index offered.length))) hs
      | none =>
        have hchosen : ∀ places : List Nat,
            (places.filterMap (offered'[·]?)).map RuleOption.unplaced
              = (places.filterMap (offered[·]?)).map RuleOption.unplaced := by
          intro places
          rw [List.map_filterMap, List.map_filterMap]
          refine List.filterMap_congr fun place _ => ?_
          rw [← List.getElem?_map, hoptions, List.getElem?_map]
        exact ih _ _ answer.2 (congrArg RunState.endCycle
          (RunState.applyAll_congr rules (hchosen _) hs rfl))

end

/-- **Positions never influence a run.** From candidates and rule sets that are equal up
to positions, a prescription leads to equal reports, or to the same failure, to equal
recipes, and to graphs that are equal up to positions. -/
theorem run_ignores_positions {rules rules' : RuleSet} {candidate candidate' : Candidate}
    (script : List (List Nat)) (config : RunConfig) (hrules : rules'.unplaced = rules.unplaced)
    (hcandidate : candidate'.unplaced = candidate.unplaced) :
    let done := run candidate rules .scripted script config
    let done' := run candidate' rules' .scripted script config
    done'.result = done.result ∧ done'.candidate.recipe = done.candidate.recipe ∧
      done'.candidate.generation = done.candidate.generation ∧
      done'.candidate.performance = done.candidate.performance ∧
      done'.candidate.graph.unplaced = done.candidate.graph.unplaced := by
  intro done done'
  have hstart : ∀ (rules : RuleSet) (c c' : Candidate), c'.unplaced = c.unplaced →
      (run c' rules.unplaced .scripted script config).unplaced
        = (run c rules .scripted script config).unplaced := by
    intro rules c c' h
    have hsize : rules.unplaced.size = rules.size := List.length_map _
    unfold run
    rw [hsize]
    exact runCycles_unplaced Chooser.scripted_ignoresPositions config config.maxCycles _ _ script
      (congrArg (fun candidate => RunState.mk candidate {} (List.replicate rules.size 0)) h)
  have hdone : done'.unplaced = done.unplaced := by
    rw [← hstart rules' candidate' candidate' rfl, hrules]
    exact hstart rules candidate candidate' hcandidate
  exact ⟨congrArg (fun done => done.result) hdone,
    congrArg (fun done => done.candidate.recipe) hdone,
    congrArg (fun done => done.candidate.generation) hdone,
    congrArg (fun done => done.candidate.performance) hdone,
    congrArg (fun done => done.candidate.graph) hdone⟩

/-! ## A rule that moves a node -/

/-- The graph with all its nodes at one point. -/
def Graph.gathered (g : Graph) (point : Point Float) : Graph :=
  { g with nodes := g.nodes.mapElements ({ · with position := point }) }

theorem Graph.unplaced_gathered (g : Graph) (point : Point Float) :
    (g.gathered point).unplaced = g.unplaced := by
  unfold gathered unplaced Registry.mapElements
  simp only [List.map_map]
  congr 2
  refine List.map_congr_left fun cell _ => ?_
  cases cell <;> rfl

/-- The rule that removes an arc from the node it points at, and moves the node. -/
def GrammarRule.cutAndMove (start goal : Point Float) : GrammarRule :=
  { GrammarRule.cutArc with
    transformNodePositions := true
    l := GrammarRule.cutArc.l.gathered start
    r := GrammarRule.cutArc.r.gathered goal }

theorem GrammarRule.unplaced_cutAndMove (start goal start' goal' : Point Float) :
    (cutAndMove start goal).unplaced = (cutAndMove start' goal').unplaced := by
  unfold cutAndMove unplaced
  simp only [Graph.unplaced_gathered]

/-- The rule applies, so what the theorem compares are two runs that did something. -/
theorem result_cutAndMove :
    (run { graph := .edge true } (({} : RuleSet).add (.cutAndMove .origin .origin)) .scripted [[0]]
      {}).result.toOption = some
      { cycles := 1
        applied := 1
        stopReason := .noOptions } := by
  decide +kernel

/-- The arc is cut whether all nodes are at the origin or they are out of reach. -/
theorem run_ignores_positions_cutAndMove :
    let done := run { graph := .edge true } (({} : RuleSet).add (.cutAndMove .origin .origin))
      .scripted [[0]] {}
    let done' := run { graph := (Graph.edge true).gathered ⟨0 / 0, 1 / 0, -1⟩ }
      (({} : RuleSet).add (.cutAndMove ⟨-1 / 0, 7, 0 / 0⟩ ⟨1, 0 / 0, 3⟩)) .scripted [[0]] {}
    (∃ report : RunReport, report.applied = 1 ∧ done.result = .ok report ∧
        done'.result = .ok report) ∧
      done'.candidate.recipe = done.candidate.recipe ∧
      done'.candidate.graph.unplaced = done.candidate.graph.unplaced := by
  intro done done'
  have hrules : (({} : RuleSet).add (.cutAndMove ⟨-1 / 0, 7, 0 / 0⟩ ⟨1, 0 / 0, 3⟩)).unplaced
      = (({} : RuleSet).add (.cutAndMove .origin .origin)).unplaced :=
    congrArg (fun rule => ({} : RuleSet).add rule) (GrammarRule.unplaced_cutAndMove _ _ _ _)
  have hcandidate : Candidate.unplaced { graph := (Graph.edge true).gathered ⟨0 / 0, 1 / 0, -1⟩ }
      = Candidate.unplaced { graph := .edge true } :=
    congrArg (fun graph => ({ graph } : Candidate)) (Graph.unplaced_gathered _ _)
  obtain ⟨hresult, hrecipe, -, -, hgraph⟩ := run_ignores_positions [[0]] {} hrules hcandidate
  have hdone := eq_ok_of_toOption result_cutAndMove
  exact ⟨⟨_, rfl, hdone, hresult.trans hdone⟩, hrecipe, hgraph⟩

end GraphGrammar
