import GraphGrammar.Proofs.Comatch
import GraphGrammar.Proofs.Confluence
import GraphGrammar.Proofs.ConfluentSet

/-!
# What becomes of the global labels

An application takes the global labels of L out of those of the host and puts
those of R in. The labels of R are there afterwards, and a label that L does
not mention stays (`apply_keeps_globalLabels`). There is one condition on the
second part. Ordered labels are replaced by their place, and the place is the
one at which the run of L was found when the option was recognized. The check
before an application does not look at it again. If other labels have moved
there since, they are taken for labels of L and are lost
(`stale_run_loses_globalLabel`).

Labels that are not ordered are not at a place, and for them there is no condition: the labels of
L are taken off wherever they stand.
-/

namespace GraphGrammar

variable {host earlier : Graph} {rule : GrammarRule} {o : RuleOption}

/-! ## Label sets

Two operations bring global labels from L to R. Labels without order are moved along, and a run
is replaced at its place. The facts here are about any label set. -/

namespace LabelSet

variable {s before after : LabelSet} {start : Nat} {label : Label}

/-- Labels that are moved along keep what the start does not mention. -/
theorem mem_moveAlong_of_notMem (h : label ∈ s.toList) (hbefore : label ∉ before.toList) :
    label ∈ (s.moveAlong before after).toList := by
  unfold moveAlong
  rw [mem_foldl_insert]
  exact .inl (mem_foldl_erase h fun hmem => hbefore (List.mem_filter.1 hmem).1)

/-- The labels of the new run are there, wherever it is put. -/
theorem mem_replaceRun_of_mem (h : label ∈ after.toList) :
    label ∈ (s.replaceRun before after start).toList := by
  unfold replaceRun
  dsimp only
  split
  · simp [mem_ofList, h]
  · simp [mem_ofList, h]

/-- A label that stands before the place of the run or behind it stays, whatever
stands at the place. -/
theorem mem_replaceRun_of_outside
    (h : label ∈ s.toList.take start ∨ label ∈ s.toList.drop (start + before.size)) :
    label ∈ (s.replaceRun before after start).toList := by
  unfold replaceRun
  dsimp only
  split
  · rw [mem_ofList, List.mem_append, List.mem_append]
    exact h.imp .inl id
  · -- the place is beyond the labels, and nothing is taken out
    generalize (start + before.size) % UInt64.size = cut
    have hmem : label ∈ s.toList.take cut ++ s.toList.drop cut :=
      (List.take_append_drop cut s.toList).symm ▸
        h.elim (fun h => List.mem_of_mem_take h) fun h => List.mem_of_mem_drop h
    rw [mem_ofList, List.mem_append, List.mem_append]
    exact (List.mem_append.1 hmem).imp .inl id

/-- Where the run is at its place, a label that does not belong to it stays. -/
theorem mem_replaceRun_of_notMem (hstart : start ∈ runStarts before.toList s.toList)
    (h : label ∈ s.toList) (hbefore : label ∉ before.toList) :
    label ∈ (s.replaceRun before after start).toList := by
  obtain ⟨-, rest, hrest⟩ := mem_runStarts_iff.1 hstart
  have hdrop : s.toList.drop (start + before.size) = rest := by
    rw [← List.drop_drop, ← hrest]
    exact List.drop_left
  rw [← List.take_append_drop start s.toList, ← hrest, List.mem_append, List.mem_append] at h
  refine mem_replaceRun_of_outside (h.imp_right fun h => ?_)
  exact hdrop ▸ h.resolve_left hbefore

end LabelSet

/-! ## The global labels after an application

The place was found when the option was recognized, and it is not looked at again when the option
is applied. If other labels have moved in the meantime, what stands at the place may be something
else. -/

/-- **The run of L is where the option found it.** An option that found no run says nothing. It
is a condition on the host at the time of the application. -/
def RuleOption.RunAt (o : RuleOption) (rule : GrammarRule) (labels : LabelSet) : Prop :=
  ∀ start, o.globalLabelStart = some start →
    start ∈ runStarts rule.l.globalLabels.toList labels.toList

/-- In the host in which an option was recognized, the run is where it was
found. -/
theorem GrammarRule.Offers.runAt (h : rule.Offers host o) (hhost : host.WellFormed)
    (hrule : rule.Coherent) : o.RunAt rule host.globalLabels := by
  intro start hstart
  exact mem_runStarts_of_mem_globalLabelStarts (hstart ▸ (h.matches hhost hrule).2)

/-- An option of a rule with ordered global labels found a run, or L has none. -/
theorem globalLabels_eq_nil_of_start_eq_none {labels : LabelSet}
    (hordered : rule.orderedGlobalLabels = true)
    (h : none ∈ globalLabelStarts rule labels) : rule.l.globalLabels.toList = [] := by
  by_contra hne
  have hwanted : ¬ rule.l.globalLabels.isEmpty = true := fun h => hne (List.isEmpty_iff.1 h)
  unfold globalLabelStarts at h
  dsimp only at h
  rw [hordered, Bool.not_true, if_neg Bool.false_ne_true, if_neg hwanted] at h
  split at h
  · exact nomatch h
  split at h
  · exact nomatch h
  · obtain ⟨_, -, heq⟩ := List.mem_map.1 h
    exact nomatch heq

namespace Update

/-- The labels of R are put in. They are there whatever stood at the place of the run. -/
theorem mem_labelsAfter_of_mem_r {labels : LabelSet} {label : Label}
    (hempty : o.globalLabelStart = none → rule.l.globalLabels.toList = [])
    (hordered : rule.orderedGlobalLabels = true) (h : label ∈ rule.r.globalLabels.toList) :
    label ∈ (labelsAfter rule o labels).toList := by
  unfold labelsAfter updateGlobals
  rw [hordered]
  cases hstart : o.globalLabelStart with
  | some start => exact LabelSet.mem_replaceRun_of_mem h
  | none =>
    refine LabelSet.mem_moveAlong (fun other hother => ?_) h
    rw [hempty hstart] at hother
    exact nomatch hother

/-- Labels that L does not mention stay if its run is where the option says. -/
theorem mem_labelsAfter_of_runAt {labels : LabelSet} {label : Label}
    (hrun : o.RunAt rule labels) (h : label ∈ labels.toList)
    (hl : label ∉ rule.l.globalLabels.toList) : label ∈ (labelsAfter rule o labels).toList := by
  unfold labelsAfter updateGlobals
  dsimp only
  split
  · rename_i start hstart
    have hstart : o.globalLabelStart = some start := by
      split at hstart
      · exact hstart
      · exact nomatch hstart
    exact LabelSet.mem_replaceRun_of_notMem (hrun start hstart) h hl
  · exact LabelSet.mem_moveAlong_of_notMem h hl

/-- Labels that stand elsewhere stay anyway. What is at stake is a stretch as long as the run of
L, and no label before it or behind it. -/
theorem mem_labelsAfter_of_outside {labels : LabelSet} {label : Label} {start : Nat}
    (hordered : rule.orderedGlobalLabels = true) (hstart : o.globalLabelStart = some start)
    (h : label ∈ labels.toList.take start ∨
      label ∈ labels.toList.drop (start + rule.l.globalLabels.size)) :
    label ∈ (labelsAfter rule o labels).toList := by
  unfold labelsAfter updateGlobals
  rw [hordered, hstart]
  exact LabelSet.mem_replaceRun_of_outside h

end Update

/-- **An application carries the global labels of R, and keeps those of the host
that L does not mention** as long as the run of L is where it was found: for a
rule with ordered global labels and an option recognized in this host or an
earlier one. Wherever the run is, what stands elsewhere is kept. -/
theorem apply_keeps_globalLabels {report : ApplyReport} (hearlier : earlier.WellFormed)
    (hhost : host.WellFormed) (hrule : rule.Built) (hordered : rule.orderedGlobalLabels = true)
    (hoffers : rule.Offers earlier o) (hresult : (apply host rule o).result = .ok report) :
    let after := (apply host rule o).host.globalLabels.toList
    (∀ label ∈ rule.r.globalLabels.toList, label ∈ after) ∧
    (o.RunAt rule host.globalLabels → ∀ label ∈ host.globalLabels.toList,
      label ∉ rule.l.globalLabels.toList → label ∈ after) ∧
    ∀ start, o.globalLabelStart = some start → ∀ label,
      label ∈ host.globalLabels.toList.take start ∨
        label ∈ host.globalLabels.toList.drop (start + rule.l.globalLabels.size) →
      label ∈ after := by
  obtain ⟨hmatch, hstart⟩ := hoffers.matches hearlier hrule.coherent
  obtain ⟨d, done, free, happly, happlied⟩ :=
    of_apply_eq_ok hhost hrule.coherent hmatch.occurs.distinct hresult
  have hafter : (apply host rule o).host.globalLabels
      = Update.labelsAfter rule o host.globalLabels := by
    rw [happly]
    exact happlied.reattaches.globals.labels.trans happlied.replaced.globals.labels
  rw [hafter]
  refine ⟨fun label hlabel => ?_, fun hrun label => Update.mem_labelsAfter_of_runAt hrun,
    fun start hstart label => Update.mem_labelsAfter_of_outside hordered hstart⟩
  exact Update.mem_labelsAfter_of_mem_r
    (fun hnone => globalLabels_eq_nil_of_start_eq_none hordered (hnone ▸ hstart)) hordered hlabel

/-- The rule that replaces a run of global labels. -/
def GrammarRule.replaceLabels (before after : List Label) : GrammarRule where
  name := "replace labels"
  l := { globalLabels := ⟨before⟩ }
  k := .empty
  r := { globalLabels := ⟨after⟩ }
  nodeConditions := []
  arcConditions := []
  hyperarcConditions := []
  contextNodes := .empty
  contextArcs := .empty
  contextHyperArcs := .empty
  orderedGlobalLabels := true

/-- The rule passes every check of a draft. -/
theorem GrammarRule.replaceLabels_built (before after : List Label) :
    (GrammarRule.replaceLabels before after).Built :=
  ⟨{ name := "replace labels"
     l := (replaceLabels before after).l
     r := (replaceLabels before after).r
     orderedGlobalLabels := true },
    ⟨Graph.membersDistinct_of_no_hyperarcs rfl, Graph.membersDistinct_of_no_hyperarcs rfl, nofun⟩,
    rfl⟩

/-- The graph that has global labels and nothing else. -/
def Graph.ofLabels (labels : List Label) : Graph where
  globalLabels := ⟨labels⟩

/-- There is nothing that could refer to anything. -/
theorem Graph.ofLabels_wellFormed (labels : List Label) : (Graph.ofLabels labels).WellFormed :=
  Graph.wellFormed_copy (g := .ofLabels labels) (Graph.membersDistinct_of_no_hyperarcs rfl)

/-- A label gives way to another, and the labels beside it stay. -/
theorem apply_keeps_globalLabels_replaceLabels :
    ∃ o ∈ (recognize (.ofLabels ["p", "q", "x"]) (.replaceLabels ["q"] ["r"]) {}).options,
      let after := (apply (.ofLabels ["p", "q", "x"]) (.replaceLabels ["q"] ["r"]) o).host
      "r" ∈ after.globalLabels.toList ∧ "p" ∈ after.globalLabels.toList ∧
        "x" ∈ after.globalLabels.toList := by
  have hlength : 0 < (recognize (.ofLabels ["p", "q", "x"])
      (.replaceLabels ["q"] ["r"]) {}).options.length := by decide +kernel
  have hmem := List.getElem_mem hlength
  have hhost := Graph.ofLabels_wellFormed ["p", "q", "x"]
  have hrule := GrammarRule.replaceLabels_built ["q"] ["r"]
  have hoffers := GrammarRule.offers_of_mem_options hmem
  refine ⟨_, hmem, ?_⟩
  obtain ⟨hr, hkeeps, -⟩ := apply_keeps_globalLabels hhost hhost hrule rfl hoffers rfl
  have hrun := hoffers.runAt hhost hrule.coherent
  exact ⟨hr "r" (by decide), hkeeps hrun "p" (by decide) (by decide),
    hkeeps hrun "x" (by decide) (by decide)⟩

/-- **A label is lost if the run is not where it was found.** Two rules are
recognized in one host, and the first takes out a label in front of the run of
the second. The second is applied all the same, where its run was: it takes out
a label that it does not mention, and leaves its own. -/
theorem stale_run_loses_globalLabel :
    let earlier := Graph.ofLabels ["p", "q", "x"]
    let first := GrammarRule.replaceLabels ["p"] []
    let second := GrammarRule.replaceLabels ["q"] ["r"]
    earlier.WellFormed ∧ first.Built ∧ second.Built ∧ second.orderedGlobalLabels = true ∧
      ∃ o o', o ∈ (recognize earlier first {}).options ∧
        o' ∈ (recognize earlier second {}).options ∧
        let host := (apply earlier first o).host
        host.WellFormed ∧ host.globalLabels.toList = ["q", "x"] ∧
          (∃ report, (apply host second o').result = .ok report) ∧
          (apply host second o').host.globalLabels.toList = ["q", "r"] := by
  intro earlier first second
  have hearlier : earlier.WellFormed := Graph.ofLabels_wellFormed _
  have hfirst : first.Built := GrammarRule.replaceLabels_built _ _
  have hsecond : second.Built := GrammarRule.replaceLabels_built _ _
  have hlength : 0 < (recognize earlier first {}).options.length := by decide +kernel
  have hlength' : 0 < (recognize earlier second {}).options.length := by decide +kernel
  have hmem := List.getElem_mem hlength
  have hmem' := List.getElem_mem hlength'
  have hconfluent : ∀ o ∈ (recognize earlier first {}).options,
      ∀ o' ∈ (recognize earlier second {}).options, areConfluent o o' = true := by decide +kernel
  have happlicable := Applicable.of_offers hearlier hfirst (fun _ h => nomatch h)
    (GrammarRule.offers_of_mem_options hmem)
  have happlicable' := Applicable.of_offers hearlier hsecond (fun _ h => nomatch h)
    (GrammarRule.offers_of_mem_options hmem')
  have hhost := (happlicable.applies hearlier).2
  -- the options have no image at all, so they are confluent, and the second is applied after the
  -- first
  have hlater := happlicable.after hearlier happlicable' (hconfluent _ hmem _ hmem')
  have hlabels : ∀ o ∈ (recognize earlier first {}).options,
      (apply earlier first o).host.globalLabels.toList = ["q", "x"] := by decide +kernel
  have hlabels' : ∀ o ∈ (recognize earlier first {}).options,
      ∀ o' ∈ (recognize earlier second {}).options,
        (apply (apply earlier first o).host second o').host.globalLabels.toList = ["q", "r"] := by
    decide +kernel
  exact ⟨hearlier, hfirst, hsecond, rfl, _, _, hmem, hmem', hhost, hlabels _ hmem,
    (hlater.applies hhost).1, hlabels' _ hmem _ hmem'⟩

end GraphGrammar
