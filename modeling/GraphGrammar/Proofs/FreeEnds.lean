import GraphGrammar.Proofs.Application

/-!
# Free ends

An end is free if its node was deleted and nothing has taken it up yet. Where
the free ends of an application are is known before any embedding rule is
looked at: each was attached to a node outside the context
(`Deletion.exists_of_free_deleteAll`).

An embedding rule that asks for a direction may turn an arc around, and then
the end that was not free moves too. One that asks for none writes the free end
and nothing else, so an application whose embedding rules ask for none leaves
every end that was attached where it is (`Reattachment.reattachAll_holdsEnds`).
Beside that, free ends are all that an application has to report
(`apply_reports_danglingEnds`).

The last part says what a report may hold. An application remarks on free ends that found no
place and on nothing else, which is what lets a run tell its own remarks from those of the
application.
-/

namespace GraphGrammar

open Attributed

variable {host : Graph} {rule : GrammarRule} {o : RuleOption}

/-! ## Where free ends are

Ends are noted while nodes go, one node after another. The induction keeps that an arc has the
end where it was, or at no node if that node is gone. -/

namespace Deletion

/-- A free end was at the node that went. -/
theorem exists_of_mem_freeEnds {matched : List ArcKey} {lNode image : NodeKey} {f : FreeEnd}
    (h : f ∈ freeEnds host matched lNode image) :
    ∃ arc, host.arc? f.arc = some arc ∧ arc.atEnd f.freed = some image := by
  unfold freeEnds at h
  obtain ⟨⟨key, arc⟩, hentry, hmem⟩ := List.mem_flatMap.1 h
  dsimp only at hmem
  split at hmem
  · exact nomatch hmem
  · obtain ⟨e, he, rfl⟩ := List.mem_map.1 hmem
    exact ⟨arc, Registry.mem_entries_iff.1 hentry, eq_of_beq (List.mem_filter.1 he).2⟩

/-- Every free end that is noted was in the host at a node that goes. -/
theorem exists_of_free_foldl_deleteNode {before : Derivation} (matched : List ArcKey)
    (images : List (NodeKey × NodeKey)) :
    ∀ {d : Derivation} {nodes : List NodeKey} {arcs : List ArcKey} {hyperarcs : List HyperArcKey}
      (free : List FreeEnd), Deletes before d nodes arcs hyperarcs →
      ∀ f ∈ (images.foldl (deleteNode matched) (d, free)).2, f ∈ free ∨
        ∃ arc node, before.host.arc? f.arc = some arc ∧ arc.atEnd f.freed = some node ∧
          node ∈ images.map Prod.snd := by
  induction images with
  | nil => exact fun _ _ _ hf => .inl hf
  | cons image rest ih =>
    intro d nodes arcs hyperarcs free h f hf
    have hone := Deletes.removeNode h.wellFormed image.2
    rcases ih (free ++ freeEnds d.host matched image.1 image.2) (h.append hone) f hf with
      hf | ⟨arc, node, harc, hend, hnode⟩
    · refine (List.mem_append.1 hf).imp_right fun hf => ?_
      -- the arc may have lost other ends before, but not this one
      obtain ⟨arc, harc, hend⟩ := exists_of_mem_freeEnds hf
      rw [h.arc?] at harc
      split at harc
      · exact nomatch harc
      obtain ⟨given, hgiven, rfl⟩ := Option.map_eq_some_iff.1 harc
      rw [Arc.atEnd_without, Option.filter_eq_some_iff] at hend
      exact ⟨given, image.2, hgiven, hend.1, List.mem_cons_self⟩
    · exact .inr ⟨arc, node, harc, hend, List.mem_cons_of_mem _ hnode⟩

/-- **A free end was at the image of a node outside the context.** -/
theorem exists_of_free_deleteAll {d : Derivation} (h : d.host.WellFormed) :
    ∀ f ∈ (deleteAll rule o d).2, ∃ arc node, d.host.arc? f.arc = some arc ∧
      arc.atEnd f.freed = some node ∧ node ∈ rule.goneNodes o.toAssignment := by
  intro f hf
  rcases exists_of_free_foldl_deleteNode _ _ [] (deletes_beforeNodes rule o h) f hf with
    hf | ⟨arc, node, harc, hend, hnode⟩
  · exact nomatch hf
  · exact ⟨arc, node, harc, hend, rule.map_snd_goneImages o.toAssignment ▸ hnode⟩

end Deletion

/-! ## Ends that stay where they are

A host after some reattachments is compared with the host before them. Arcs may have been added
and dangling ends attached, and that is all. -/

/-- **The arcs of a graph are still there, attached where they were.** Dangling ends may have
been attached since. The arcs may have changed otherwise, and there may be others beside them. -/
def Graph.HoldsEnds (g after : Graph) : Prop :=
  ∀ key arc, g.arc? key = some arc → ∃ held, after.arc? key = some held ∧
    held.doublyDirected = arc.doublyDirected ∧
      ∀ e node, arc.atEnd e = some node → held.atEnd e = some node

namespace Graph.HoldsEnds

variable {g : Graph}

/-- Nothing has moved yet. -/
theorem refl (g : Graph) : g.HoldsEnds g := fun _ arc harc => ⟨arc, harc, rfl, fun _ _ h => h⟩

/-- An arc may be changed as long as it holds the ends it had. -/
theorem modifyArc (h : g.HoldsEnds host) {key : ArcKey} {arc : Arc} {f : Arc → Arc}
    (harc : host.arc? key = some arc) (hflag : (f arc).doublyDirected = arc.doublyDirected)
    (hends : ∀ given, g.arc? key = some given → ∀ e, given.atEnd e ≠ none →
      (f arc).atEnd e = arc.atEnd e) : g.HoldsEnds (host.modifyArc key f) := by
  intro other given hgiven
  obtain ⟨held, hheld, hflags, hatEnd⟩ := h other given hgiven
  by_cases hkey : key = other
  · subst hkey
    cases harc.symm.trans hheld
    refine ⟨f arc, ?_, hflag.trans hflags, fun e node hnode => ?_⟩
    · refine (Registry.get?_modify ..).trans ?_
      rw [if_pos rfl]
      exact congrArg (Option.map f) harc
    · exact (hends given hgiven e (hnode ▸ Option.some_ne_none node)).trans (hatEnd e node hnode)
  · exact ⟨held, ((Registry.get?_modify ..).trans (if_neg hkey)).trans hheld, hflags, hatEnd⟩

/-- Arcs that are added take none of the keys that are in use. -/
theorem addArc {d d' : Derivation} (h : g.HoldsEnds d.host) {arc : Arc}
    (hok : d.addArc arc = .ok d') : g.HoldsEnds d'.host := by
  obtain ⟨⟨key, after⟩, hadd, heq⟩ := bind_eq_ok_iff.1 hok
  cases heq
  obtain ⟨-, rfl⟩ := Graph.of_addArcUnique_eq_ok (mapError_eq_ok_iff.1 hadd)
  intro other given hgiven
  obtain ⟨held, hheld, hrest⟩ := h other given hgiven
  have hlt : other ≠ d.host.arcs.nextKey := by
    rintro rfl
    exact nomatch hheld.symm.trans (Registry.get?_nextKey _)
  exact ⟨held, ((Registry.get?_pushUnique ..).trans (if_neg hlt)).trans hheld, hrest⟩

end Graph.HoldsEnds

namespace Reattachment

variable {images : Update.NodeImages} {g : Graph} {d d' : Derivation}

/-- An embedding rule that asks for no direction writes the free end and nothing else. With a
direction to honour, the arc may have to be turned around for it. -/
theorem attachedEnds_of_any {e : EmbeddingRule} (hany : e.newDirection = .any) (arc : Arc)
    (freed : ArcEnd) (otherFreed : Bool) (target : NodeKey) :
    attachedEnds e arc freed otherFreed target
      = ((arc.withEnd freed (some target)).source, (arc.withEnd freed (some target)).target) := by
  unfold attachedEnds
  rw [hany]
  cases otherFreed <;> cases freed <;> rfl

/-- An end that was set changed one arc. -/
theorem of_setEnd_eq_ok {key : ArcKey} {e : ArcEnd} {node : Option NodeKey}
    (h : Derivation.setEnd host key e node = .ok g) :
    g = host.modifyArc key (·.withEnd e node) := by
  have h := mapError_eq_ok_iff.1 h
  unfold Graph.setArcEnd at h
  split at h
  · exact nomatch h
  split at h
  · exact (Except.ok.inj h).symm
  · exact nomatch h

/-- Attaching a free end changes one arc. -/
theorem of_attach_eq_ok {arc : Arc} {f : FreeEnd} {otherFreed : Bool} {e : EmbeddingRule}
    {target : NodeKey} (h : attach host arc f otherFreed e target = .ok g) :
    g = host.modifyArc f.arc fun given =>
      { given with
        source := (attachedEnds e arc f.freed otherFreed target).1
        target := (attachedEnds e arc f.freed otherFreed target).2
        directed := attachedDirected e arc } := by
  unfold attach at h
  obtain ⟨half, hhalf, h⟩ := bind_eq_ok_iff.1 h
  obtain ⟨whole, hwhole, h⟩ := bind_eq_ok_iff.1 h
  cases h
  cases of_setEnd_eq_ok hhalf
  cases of_setEnd_eq_ok hwhole
  rw [Update.modifyArc_modifyArc, Update.modifyArc_modifyArc]
  rfl

/-- What admits an end is an embedding rule of the rule. -/
theorem embeddingRule_of_mem_admitting {arc : Arc} {f : FreeEnd} {otherFreed : Bool}
    {e : EmbeddingRule} {target : NodeKey}
    (h : (e, target) ∈ admitting host rule images arc f otherFreed) :
    e ∈ rule.embeddingRules := by
  unfold admitting at h
  obtain ⟨taker, htaker, heq⟩ := List.mem_filterMap.1 h
  obtain ⟨_, -, heq⟩ := Option.map_eq_some_iff.1 heq
  cases heq
  exact (List.mem_filter.1 htaker).1

variable (hany : ∀ e ∈ rule.embeddingRules, e.newDirection = .any)

include hany

/-- **Offering one end to the embedding rules moves no other end.** The arc is written at the
free end only, and the copies are new arcs. -/
theorem reattach_holdsEnds {f : FreeEnd}
    (hfree : ∀ arc, g.arc? f.arc = some arc → arc.atEnd f.freed = none) {doublyFreed : List ArcKey}
    (h : g.HoldsEnds d.host) (hok : reattach rule images doublyFreed d f = .ok d') :
    g.HoldsEnds d'.host := by
  unfold reattach at hok
  split at hok
  · cases hok
    exact h
  rename_i arc harc
  dsimp only at hok
  split at hok
  · cases hok
    exact h
  rename_i e target rest hadmitting
  have hmem : (e, target) ∈ (e, target) :: rest := List.mem_cons_self
  have he : e ∈ rule.embeddingRules := embeddingRule_of_mem_admitting (hadmitting ▸ hmem)
  obtain ⟨attached, hattached, hok⟩ := bind_eq_ok_iff.1 hok
  obtain ⟨after, hafter, heq⟩ := bind_eq_ok_iff.1 hattached
  cases heq
  have hheld : g.HoldsEnds after := by
    rw [of_attach_eq_ok hafter, attachedEnds_of_any (hany e he)]
    refine h.modifyArc harc rfl fun given hgiven side hside => ?_
    -- what is attached is not the free end, and only the free end is written
    have hne : side ≠ f.freed := fun heq => hside (heq ▸ hfree given hgiven)
    have hwrite := (arc.atEnd_withEnd f.freed side (some target)).trans (if_neg hne)
    cases side <;> exact hwrite
  change (if _ then Except.ok _ else _) = Except.ok d' at hok
  split at hok
  · cases hok
    exact hheld
  · exact foldlM_keeps (P := fun d => g.HoldsEnds d.host)
      (fun _ taker _ _ h hadd => h.addArc hadd) hheld hok

/-- **Ends that are attached stay where they are** if no embedding rule asks for
a direction. -/
theorem reattachAll_holdsEnds {ends : List FreeEnd}
    (hfree : ∀ f ∈ ends, ∀ arc, d.host.arc? f.arc = some arc → arc.atEnd f.freed = none)
    (hok : reattachAll rule images ends d = .ok d') : d.host.HoldsEnds d'.host :=
  foldlM_keeps (P := fun d' => d.host.HoldsEnds d'.host)
    (fun _ f _ hf h => reattach_holdsEnds hany (hfree f hf) h) (.refl _) hok

end Reattachment

/-! ## What an application has to report

The property is carried through the phases. All but the last of them remark upon nothing. -/

/-- The derivation has reported dangling ends at most. -/
def Derivation.ReportsDangling (d : Derivation) : Prop :=
  ∀ remark ∈ d.report.diagnostics, ∃ arc name freed, remark = .danglingEnd arc name freed

namespace Derivation.ReportsDangling

variable {d d' : Derivation}

/-- At the start nothing has been reported. -/
theorem start (host : Graph) : ReportsDangling { host } := fun _ h => nomatch h

/-! Removing, adding and changing elements is put down without a remark. -/

/-- Removing a node reports nothing of this kind. -/
theorem removeNode (h : d.ReportsDangling) (key : NodeKey) :
    (d.removeNode key).ReportsDangling := by
  unfold Derivation.removeNode
  split <;> exact h

/-- Removing an arc reports nothing of this kind. -/
theorem removeArc (h : d.ReportsDangling) (key : ArcKey) : (d.removeArc key).ReportsDangling := by
  unfold Derivation.removeArc
  split <;> exact h

/-- Removing a hyperarc reports nothing of this kind. -/
theorem removeHyperArc (h : d.ReportsDangling) (key : HyperArcKey) :
    (d.removeHyperArc key).ReportsDangling := by
  unfold Derivation.removeHyperArc
  split <;> exact h

/-- A change of the host reports nothing of this kind. -/
theorem mapHostM (h : d.ReportsDangling) {f : Graph → Except Interrupted Graph}
    (hok : d.mapHostM f = .ok d') : d'.ReportsDangling := by
  obtain ⟨_, -, heq⟩ := bind_eq_ok_iff.1 hok
  cases heq
  exact h

/-- Adding an arc reports nothing of this kind. -/
theorem addArc (h : d.ReportsDangling) {arc : Arc} (hok : d.addArc arc = .ok d') :
    d'.ReportsDangling := by
  obtain ⟨_, -, heq⟩ := bind_eq_ok_iff.1 hok
  cases heq
  exact h

/-- Adding a hyperarc reports nothing of this kind. -/
theorem addHyperArc (h : d.ReportsDangling) {hyperarc : HyperArc}
    (hok : d.addHyperArc hyperarc = .ok d') : d'.ReportsDangling := by
  obtain ⟨_, -, heq⟩ := bind_eq_ok_iff.1 hok
  cases heq
  exact h

/-- Neither does the deletion as a whole. -/
theorem deleteAll (rule : GrammarRule) (o : RuleOption) (h : d.ReportsDangling) :
    (Deletion.deleteAll rule o d).1.ReportsDangling := by
  refine List.foldlRecOn (motive := fun state : Derivation × List FreeEnd =>
    state.1.ReportsDangling) _ _ ?_ fun _ h image _ => h.removeNode image.2
  refine List.foldlRecOn _ _ ?_ fun _ h key _ => h.removeHyperArc key
  exact List.foldlRecOn _ _ h fun _ h key _ => h.removeArc key

/-- Nor do the nodes that are added. -/
theorem addNodes (rule : GrammarRule) (o : RuleOption) (h : d.ReportsDangling) :
    (Addition.addNodes rule o d).1.ReportsDangling := by
  refine List.foldlRecOn (motive := fun state : Derivation × Update.NodeImages =>
    state.1.ReportsDangling) _ _ h ?_
  rintro ⟨d', images⟩ h ⟨key, node⟩ -
  unfold Addition.addNode
  dsimp only
  split
  · split <;> exact h
  · exact h

/-- A free end that is offered to the embedding rules is reported if it stays
dangling, and nothing else is. -/
theorem reattach (h : d.ReportsDangling) {images : Update.NodeImages} {doublyFreed : List ArcKey}
    {f : FreeEnd} (hok : Reattachment.reattach rule images doublyFreed d f = .ok d') :
    d'.ReportsDangling := by
  unfold Reattachment.reattach at hok
  split at hok
  · cases hok
    exact h
  dsimp only at hok
  split at hok
  · cases hok
    intro remark hremark
    rcases List.mem_append.1 hremark with hremark | hremark
    · exact h remark hremark
    · exact ⟨_, _, _, List.mem_singleton.1 hremark⟩
  obtain ⟨attached, hattached, hok⟩ := bind_eq_ok_iff.1 hok
  change (if _ then Except.ok _ else _) = Except.ok d' at hok
  split at hok
  · cases hok
    exact h.mapHostM hattached
  · exact foldlM_keeps (fun _ _ _ _ h hadd => h.addArc hadd) (h.mapHostM hattached) hok

end Derivation.ReportsDangling

/-- **What was carried out has reported dangling ends at most.** -/
theorem reportsDangling_of_carryOut {done : Derivation} (hok : carryOut host rule o = .ok done) :
    done.ReportsDangling := by
  obtain ⟨withContextArcs, hcontextArcs, hok⟩ := bind_eq_ok_iff.1 hok
  obtain ⟨withContext, hcontext, hok⟩ := bind_eq_ok_iff.1 hok
  obtain ⟨withArcs, harcs, hok⟩ := bind_eq_ok_iff.1 hok
  obtain ⟨withAll, hhyperarcs, hok⟩ := bind_eq_ok_iff.1 hok
  have hdeleted := (Derivation.ReportsDangling.start host).deleteAll rule o
  let updated := (Deletion.deleteAll rule o { host }).1.mapHost (Update.updateNodes rule o)
  have hplaced := Derivation.ReportsDangling.addNodes (d := updated) rule o hdeleted
  have hmoved : Derivation.ReportsDangling (if rule.transformNodePositions
      then (Addition.addNodes rule o updated).1.mapHost (Update.moveNodes rule o)
      else (Addition.addNodes rule o updated).1) := by
    split <;> exact hplaced
  have hwithContext := (hmoved.mapHostM hcontextArcs).mapHostM hcontext
  have hwithArcs := foldlM_keeps (fun _ _ _ _ h hadd => h.addArc hadd) hwithContext harcs
  have hwithAll : withAll.ReportsDangling :=
    foldlM_keeps (fun _ _ _ _ h hadd => h.addHyperArc hadd) hwithArcs hhyperarcs
  have hwithGlobals : (withAll.mapHost (Update.updateGlobals rule o)).ReportsDangling := hwithAll
  exact foldlM_keeps (fun _ _ _ _ h hone => h.reattach hone) hwithGlobals hok

/-- **Dangling ends are all that an application has to report.** -/
theorem apply_reports_danglingEnds {report : ApplyReport}
    (h : (apply host rule o).result = .ok report) :
    ∀ remark ∈ report.diagnostics, ∃ arc name freed, remark = .danglingEnd arc name freed := by
  unfold apply at h
  dsimp only at h
  split at h
  · exact nomatch h
  split at h
  · exact nomatch h
  · rename_i done hdone
    cases h
    exact reportsDangling_of_carryOut hdone

end GraphGrammar
