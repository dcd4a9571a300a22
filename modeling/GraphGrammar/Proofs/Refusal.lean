import GraphGrammar.Proofs.Application

/-!
# When an application is refused

An option is looked at before anything is changed, and what is refused then
leaves the host as it was. The look does not tell whether the images are
distinct. If they are not, the host may refuse an edit later, when parts of it
have been deleted already; but only if an element that the rule keeps has its
image in common with one that it deletes. As long as it has not
(`GrammarRule.SparesContext`), whatever else the option says, every step finds
its nodes and hyperarcs (`carryOut_succeeds`).

The outcome in which the host is changed and the application refused cannot be excluded, since it
happens (`apply_interrupted_keepLooped`). What can be said is when: some node or hyperarc of the
host is the image of an element that is kept and of one that is not. -/

namespace GraphGrammar

variable {host : Graph} {rule : GrammarRule} {o : RuleOption}

/-! ## What a refused edit is called

The causes of a refusal are told apart by where they come from. After the check there is one
source left, the graph, and each step is gone through to see that it has no other. -/

/-- A step of an application that is refused, is refused by the graph. -/
def GraphRefuses {α : Type} (step : Except Interrupted α) : Prop :=
  ∀ interrupted, step = .error interrupted → interrupted.failure.cause = .graph

namespace GraphRefuses

variable {α β : Type}

/-- A step that succeeds is not refused. -/
theorem ok (a : α) : GraphRefuses (.ok a) := nofun

/-- An edit is refused by the graph. -/
theorem edit (host : Graph) (outcome : Outcome GraphError α) :
    GraphRefuses (Derivation.edit host outcome) := by
  intro interrupted h
  cases outcome with
  | ok => exact nomatch h
  | error failure =>
    cases h
    rfl

/-- One step after another is refused by the graph, if each of them is. -/
theorem bind {step : Except Interrupted α} {next : α → Except Interrupted β}
    (hstep : GraphRefuses step) (hnext : ∀ a, GraphRefuses (next a)) :
    GraphRefuses (step >>= next) := by
  intro interrupted h
  cases hresult : step with
  | error refused =>
    rw [hresult] at h
    cases h
    exact hstep _ hresult
  | ok a =>
    rw [hresult] at h
    exact hnext a interrupted h

/-- So is a loop of steps. -/
theorem foldlM {f : β → α → Except Interrupted β} (hf : ∀ b a, GraphRefuses (f b a)) :
    ∀ (list : List α) (b : β), GraphRefuses (list.foldlM f b)
  | [], b => ok b
  | a :: rest, b => by
    rw [List.foldlM_cons]
    exact (hf b a).bind fun next => foldlM hf rest next

/-- A change of the host is refused by the graph. -/
theorem mapHostM {f : Graph → Except Interrupted Graph} (hf : ∀ g, GraphRefuses (f g))
    (d : Derivation) : GraphRefuses (d.mapHostM f) :=
  (hf d.host).bind fun _ => ok _

/-- Setting an end is refused by the graph. -/
theorem setEnd (host : Graph) (key : ArcKey) (e : ArcEnd) (node : Option NodeKey) :
    GraphRefuses (Derivation.setEnd host key e node) := edit host _

/-- Adding an arc is refused by the graph. -/
theorem addArc (d : Derivation) (arc : Arc) : GraphRefuses (d.addArc arc) :=
  (edit d.host _).bind fun _ => ok _

/-- Adding a hyperarc is refused by the graph. -/
theorem addHyperArc (d : Derivation) (hyperarc : HyperArc) :
    GraphRefuses (d.addHyperArc hyperarc) :=
  (edit d.host _).bind fun _ => ok _

/-- Bringing an arc along is refused by the graph. The steps of bringing it along are edits of
the ends, and one after another they are refused by the graph if at all. -/
theorem updateArc (rule : GrammarRule) (o : RuleOption) (images : Update.NodeImages)
    (reversed : List ArcKey) (g : Graph) (pair : ArcKey × Arc × Arc) :
    GraphRefuses (Update.updateArc rule o images reversed g pair) := by
  obtain ⟨key, before, after⟩ := pair
  have hreconnect : ∀ image backToFront (g : Graph) e,
      GraphRefuses (Update.reconnectEnd rule images image before after backToFront g e) := by
    intro image backToFront g e
    unfold Update.reconnectEnd
    split
    · exact ok g
    · exact setEnd g image _ _
  have hfinish : ∀ image backToFront (g : Graph), GraphRefuses (do
      let reconnected ←
        ArcEnd.both.foldlM (Update.reconnectEnd rule images image before after backToFront) g
      return reconnected.modifyArc image (·.moveAlong before after)) := fun image backToFront g =>
    (foldlM (hreconnect image backToFront) _ g).bind fun _ => ok _
  unfold Update.updateArc
  dsimp only
  split
  · exact ok g
  split
  · exact ok g
  split
  · exact (setEnd g _ _ _).bind fun half =>
      (setEnd half _ _ _).bind fun aligned => hfinish _ _ aligned
  · exact hfinish _ _ g

/-- Bringing a hyperarc along is refused by the graph. -/
theorem updateHyperArc (rule : GrammarRule) (o : RuleOption) (images : Update.NodeImages)
    (g : Graph) (pair : HyperArcKey × HyperArc × HyperArc) :
    GraphRefuses (Update.updateHyperArc rule o images g pair) := by
  unfold Update.updateHyperArc
  dsimp only
  split
  · exact ok g
  · exact (foldlM (fun g _ => edit g _) _ g).bind fun left =>
      (foldlM (fun g _ => edit g _) _ left).bind fun _ => ok _

/-- Offering a free end is refused by the graph. -/
theorem reattach (rule : GrammarRule) (images : Update.NodeImages) (doublyFreed : List ArcKey)
    (d : Derivation) (f : FreeEnd) :
    GraphRefuses (Reattachment.reattach rule images doublyFreed d f) := by
  unfold Reattachment.reattach
  split
  · exact ok d
  dsimp only
  split
  · exact ok _
  · refine bind (mapHostM (fun g =>
      (setEnd g _ _ _).bind fun half => (setEnd half _ _ _).bind fun _ => ok _) d)
        fun attached => ?_
    show GraphRefuses (if _ then Except.ok attached else _)
    split
    · exact ok attached
    · exact foldlM (fun d _ => addArc d _) _ attached

/-- **Whatever is refused once the option was accepted, is refused by the graph.** -/
theorem carryOut (host : Graph) (rule : GrammarRule) (o : RuleOption) :
    GraphRefuses (carryOut host rule o) :=
  bind (mapHostM (fun g => foldlM (updateArc rule o _ _) _ g) _) fun withContextArcs =>
    bind (mapHostM (fun g => foldlM (updateHyperArc rule o _) _ g) withContextArcs)
      fun withContext => bind (foldlM (fun d _ => addArc d _) _ withContext) fun withArcs =>
        bind (foldlM (fun d _ => addHyperArc d _) _ withArcs) fun _ =>
          foldlM (reattach rule _ _) _ _

end GraphRefuses

/-! ## Every step finds its nodes

For distinct images it is known which elements there are after each phase. Here images may
coincide, and less is shown: every node that a later step refers to is alive. -/

namespace Update

variable {images : NodeImages} {g : Graph}

/-- The arcs of the context are brought along as far as their images are there. An image that is
gone is passed over; nodes and hyperarcs are not touched. -/
theorem updateArcs_succeeds (rule : GrammarRule) (o : RuleOption) (reversed : List ArcKey)
    (hg : g.WellFormed) (hplace : ∀ m n, images.lookup m = some n → g.hasNode n = true) :
    ∃ g', updateArcs rule o images reversed g = .ok g' ∧
      g'.WellFormed ∧ g'.nodes = g.nodes ∧ g'.hyperarcs = g.hyperarcs := by
  refine foldlM_succeeds (P := fun g' : Graph =>
    g'.WellFormed ∧ g'.nodes = g.nodes ∧ g'.hyperarcs = g.hyperarcs) ?_ ⟨hg, rfl, rfl⟩
  rintro now ⟨key, before, after⟩ - ⟨hnow, hnodes, hhyperarcs⟩
  have hplaceNow : ∀ m n, images.lookup m = some n → now.hasNode n = true := fun m n hm =>
    (congrArg (Registry.contains · n) hnodes).trans (hplace m n hm)
  cases himage : o.arc? key with
  | none =>
    refine ⟨now, ?_, hnow, hnodes, hhyperarcs⟩
    simp only [updateArc, himage]
  | some image =>
    cases hgiven : now.arc? image with
    | none =>
      refine ⟨now, ?_, hnow, hnodes, hhyperarcs⟩
      simp only [updateArc, himage, hgiven]
    | some given =>
      refine ⟨_, updateArc_eq_ok hnow hplaceNow himage (Registry.contains_iff.2 ⟨given, hgiven⟩),
        hnow.modifyArc fun arc harc => ⟨nameOf_broughtArc .., fun node hnode => ?_⟩,
        hnodes, hhyperarcs⟩
      rcases mem_ends_broughtArc hnode with hnode | ⟨m, hm⟩
      · exact hnow.ends_alive image arc harc node hnode
      · exact hplaceNow m node hm

end Update

namespace Addition

/-- Arcs are added where their ends are alive. -/
theorem addArcs_succeeds (rule : GrammarRule) {images : Update.NodeImages} {d : Derivation}
    (hd : d.host.WellFormed) (hplace : ∀ m n, images.lookup m = some n → d.host.hasNode n = true) :
    ∃ d', addArcs rule images d = .ok d' ∧ d'.host.WellFormed ∧ d'.host.nodes = d.host.nodes :=
  let ⟨hadd, hwellFormed⟩ := foldlM_addArc rule.freshArcs hd hplace
  ⟨_, hadd, hwellFormed, rfl⟩

/-- Hyperarcs are added where their members are alive. The members need not be
distinct. -/
theorem addHyperArcs_succeeds (rule : GrammarRule) {images : Update.NodeImages}
    {d : Derivation} (hplace : ∀ m n, images.lookup m = some n → d.host.hasNode n = true) :
    ∃ d', addHyperArcs rule images d = .ok d' ∧ d'.host.nodes = d.host.nodes ∧
      d'.host.arcs = d.host.arcs := by
  refine foldlM_succeeds (P := fun d' : Derivation =>
    d'.host.nodes = d.host.nodes ∧ d'.host.arcs = d.host.arcs) ?_ ⟨rfl, rfl⟩
  rintro now ⟨key, hyperarc⟩ - ⟨hnodes, harcs⟩
  exact ⟨_, Derivation.addHyperArc_eq_ok (hasNode_of_mem_mapMembers (fun m n hm =>
    (congrArg (Registry.contains · n) hnodes).trans (hplace m n hm)) hyperarc), hnodes, harcs⟩

end Addition

/-- **Free ends are offered without being refused**, whatever else is wrong with the
host. -/
theorem Reattachment.reattachAll_of_endsAlive (rule : GrammarRule) {images : Update.NodeImages}
    {d : Derivation} (hends : d.host.EndsAlive)
    (hplace : ∀ m n, images.lookup m = some n → d.host.hasNode n = true) (free : List FreeEnd) :
    ∃ d', reattachAll rule images free d = .ok d' := by
  have hall : ∃ d', free.foldlM (reattach rule images (doublyFreed free)) d = .ok d' ∧
      d'.host.EndsAlive ∧ d'.host.nodes = d.host.nodes := by
    refine foldlM_succeeds (P := fun d' : Derivation =>
      d'.host.EndsAlive ∧ d'.host.nodes = d.host.nodes) ?_ ⟨hends, rfl⟩
    rintro now f - ⟨hends, hnodes⟩
    obtain ⟨next, hnext, hoffered⟩ := exists_offered rule hends (fun m n hm =>
      (congrArg (Registry.contains · n) hnodes).trans (hplace m n hm)) f (doublyFreed free)
    exact ⟨next, hnext, hoffered.endsAlive hends, hoffered.nodes.trans hnodes⟩
  obtain ⟨d', hd', -⟩ := hall
  exact ⟨d', hd'⟩

/-! ## Nodes of R are somewhere

A node of R in the context is at an image, and this is alive as long as no image is kept and
deleted at once. That is all that the additions and the reattachment need. -/

section Places

variable {κ : Kind} {α : Type}

/-- Changes take nothing away. -/
theorem Registry.contains_modifyAll (changes : List (Key κ × (α → α))) (key : Key κ) :
    ∀ r : Registry κ α, (r.modifyAll changes).contains key = r.contains key := by
  induction changes with
  | nil => exact fun _ => rfl
  | cons change rest ih =>
    intro r
    rw [modifyAll_cons, ih, contains_modify]

/-- What is added is found at the keys that were next. -/
theorem Registry.contains_pushAll_of_mem_nextKeys [Attributed α] {r : Registry κ α}
    {elements : List α} {key : Key κ} (h : key ∈ r.nextKeys elements.length) :
    (r.pushAll elements).contains key = true := by
  obtain ⟨i, hi⟩ := List.mem_iff_getElem?.1 h
  have hlt : i < elements.length := by
    have hlt := (List.getElem?_eq_some_iff.1 hi).1
    rwa [length_nextKeys] at hlt
  rw [getElem?_nextKeys _ hlt] at hi
  cases hi
  obtain ⟨name, hname⟩ := (rewritten_pushAll r elements).new i _ (List.getElem?_eq_getElem hlt)
  exact contains_iff.2 ⟨_, hname⟩

end Places

/-- The place of a node of R is alive if no node that is kept is lost. A node that is added is
alive because it was just added. -/
theorem GrammarRule.SparesContext.contains_place (hspared : rule.SparesContext o.toAssignment)
    (hrule : rule.Coherent) (hfits : o.Fits host rule) {nodes : Registry .node Node}
    (hnodes : ∀ key, host.hasNode key = true → key ∉ rule.goneNodes o.toAssignment →
      nodes.contains key = true) {m n : NodeKey}
    (h : rule.place o.toAssignment (nodes.nextKeys rule.freshNodes.length) m = some n) :
    (nodes.pushAll (rule.freshNodes.map fun entry =>
      Addition.placedNode o entry.2)).contains n = true := by
  rcases (Correspondence.placeIn_eq_some rule.r.nodes.nodup_keys).1 h with
    ⟨lKey, hleft, himage⟩ | ⟨-, i, -, hi⟩
  · have hkept := hspared.node lKey m n ((hrule.node_pairs.left?_iff lKey m).1 hleft) himage
    have hcontains := hnodes n (hfits.of_node? hrule himage).2.2 hkept
    rw [Registry.contains, Registry.get?_pushAll _ (Registry.lt_of_contains hcontains)]
    exact hcontains
  · refine Registry.contains_pushAll_of_mem_nextKeys ?_
    rw [List.length_map]
    exact List.mem_of_getElem? hi

/-- After the first update, the additions and the moves, the host differs from what deletion left
in its nodes only, and the places of the nodes of R are alive. The positions are changed last,
and nothing after this asks for them. -/
theorem nodes_moved (hrule : rule.Coherent) (hfits : o.Fits host rule)
    (hspared : rule.SparesContext o.toAssignment) {deleted : Derivation}
    (hdeleted : Deletes { host } deleted (rule.goneNodes o.toAssignment)
      (rule.goneArcs o.toAssignment) (rule.goneHyperArcs o.toAssignment)) :
    let placed := Addition.addNodes rule o (deleted.mapHost (Update.updateNodes rule o))
    let moved := if rule.transformNodePositions then placed.1.mapHost (Update.moveNodes rule o)
      else placed.1
    ∃ nodes, moved.host = { deleted.host with nodes } ∧ moved.host.WellFormed ∧
      ∀ m n, placed.2.lookup m = some n → nodes.contains n = true := by
  let updates := Update.nodeChanges rule o fun before after node =>
    Attributed.moveAlong node before after
  let fresh := rule.freshNodes.map fun entry => Addition.placedNode o entry.2
  let updated : Derivation :=
    ⟨{ deleted.host with nodes := deleted.host.nodes.modifyAll updates }, deleted.report⟩
  have hupdate : deleted.mapHost (Update.updateNodes rule o) = updated :=
    congrArg (Derivation.mk · deleted.report) (Update.updateNodes_eq deleted.host)
  obtain ⟨hplaced, himages⟩ := Addition.addNodes_eq (o := o) hrule updated
  rw [hupdate]
  dsimp only
  rw [Replaced.moves_eq, hplaced]
  refine ⟨(updated.host.nodes.pushAll fresh).modifyAll (rule.nodeMoves o), rfl, ?_, ?_⟩
  · exact Update.wellFormed_modifyAll _
      (fun _ hchange node =>
        congrArg (·.name) (GrammarRule.toAttributes_of_mem_nodeMoves hchange node))
      (Addition.wellFormed_pushAll fresh (Update.wellFormed_nodeChanges
        (fun before after node => Update.nameOf_moveAlong node before after) hdeleted.wellFormed))
  · intro m n hm
    rw [Registry.contains_modifyAll]
    refine hspared.contains_place hrule hfits (fun key hkey hkept => ?_)
      ((himages m).symm.trans hm)
    obtain ⟨node, hnode⟩ := Graph.hasNode_iff.1 hkey
    refine (Registry.contains_modifyAll ..).trans (Registry.contains_iff.2 ⟨node, ?_⟩)
    exact (hdeleted.node? key).trans ((if_neg hkept).trans hnode)

/-- **An accepted option whose context images are spared is carried out.** The phases are gone
through as for distinct images, but each is known to leave the nodes where they are and not what
it makes of each arc. -/
theorem carryOut_succeeds (hhost : host.WellFormed) (hrule : rule.Coherent)
    (hfits : o.Fits host rule) (hspared : rule.SparesContext o.toAssignment) :
    ∃ done, carryOut host rule o = .ok done := by
  have hdeleted : Deletes { host } (Deletion.deleteAll rule o { host }).1
      (rule.goneNodes o.toAssignment) (rule.goneArcs o.toAssignment)
      (rule.goneHyperArcs o.toAssignment) := deletes_deleteAll hhost
  obtain ⟨nodes, hmoved, hwellFormed, hplace⟩ := nodes_moved hrule hfits hspared hdeleted
  unfold carryOut
  dsimp only
  generalize Addition.addNodes rule o _ = placed at *
  generalize (if rule.transformNodePositions then placed.1.mapHost (Update.moveNodes rule o)
    else placed.1) = moved at *
  obtain ⟨moved, report⟩ := moved
  cases hmoved
  -- every step that could be refused finds what it needs
  obtain ⟨brought, harcs, hbrought, hnodes, hhyperarcs⟩ :=
    Update.updateArcs_succeeds rule o (Update.reversedArcs host rule o) hwellFormed hplace
  have hplace : ∀ m n, placed.2.lookup m = some n → brought.hasNode n = true := fun m n hm =>
    (congrArg (Registry.contains · n) hnodes).trans (hplace m n hm)
  obtain ⟨hcontext, hjoined⟩ := Update.updateHyperArc_foldlM rule.hyperarcPairs hbrought hplace
    fun pair hpair => by
      rw [hhyperarcs]
      exact hspared.contains_hyperarc hrule hfits hdeleted hpair
  obtain ⟨withArcs, haddArcs, hconnected, hsame⟩ :=
    Addition.addArcs_succeeds rule (d := ⟨_, report⟩) hjoined hplace
  have hplace : ∀ m n, placed.2.lookup m = some n → withArcs.host.hasNode n = true := fun m n hm =>
    (congrArg (Registry.contains · n) hsame).trans (hplace m n hm)
  obtain ⟨all, haddHyperArcs, hallNodes, hallArcs⟩ := Addition.addHyperArcs_succeeds rule hplace
  have hallPlace : ∀ n, all.host.hasNode n = withArcs.host.hasNode n := fun n =>
    congrArg (Registry.contains · n) hallNodes
  obtain ⟨done, hdone⟩ := Reattachment.reattachAll_of_endsAlive rule
    (d := all.mapHost (Update.updateGlobals rule o))
    (fun key arc harc node hnode => (hallPlace node).trans
      (hconnected.ends_alive key arc ((congrArg (Registry.get? · key) hallArcs).symm.trans harc)
        node hnode))
    (fun m n hm => (hallPlace n).trans (hplace m n hm)) (Deletion.deleteAll rule o { host }).2
  exact ⟨done, (bind_of_eq_ok (Derivation.mapHostM_eq_ok harcs) _).trans
    ((bind_of_eq_ok (Derivation.mapHostM_eq_ok hcontext) _).trans
      ((bind_of_eq_ok haddArcs _).trans ((bind_of_eq_ok haddHyperArcs _).trans hdone)))⟩

/-! ## The whole application

The condition that no image is both kept and deleted is `GrammarRule.SparesContext`. With it the
application goes through, and without it only the graph can refuse. -/

/-- **An application that is refused leaves the host as it was**, unless the graph
refuses an edit; and that happens only if some image is to be kept and to be
deleted at once. -/
theorem apply_refused (hhost : host.WellFormed) (hrule : rule.Built)
    {failure : Report ApplyError} (h : (apply host rule o).result = .error failure) :
    (apply host rule o).host = host ∧
        (failure.cause = .optionShape rule.name ∨ failure.cause = .staleOption) ∨
      failure.cause = .graph ∧ ¬ rule.SparesContext o.toAssignment := by
  cases hcheck : o.check host rule with
  | error refused =>
    obtain ⟨failure', happly, hcause⟩ := apply_of_check hcheck
    rw [happly] at h ⊢
    cases h
    exact .inl ⟨rfl, hcause ▸ RuleOption.cause_of_check hcheck⟩
  | ok _ =>
    have hfits := (RuleOption.check_eq_ok_iff hrule.coherent).1 hcheck
    unfold apply at h
    rw [hcheck] at h
    dsimp only [Outcome.note_ok] at h
    split at h
    · rename_i interrupted hinterrupted
      cases h
      refine .inr ⟨GraphRefuses.carryOut host rule o interrupted hinterrupted, fun hspared => ?_⟩
      obtain ⟨done, hdone⟩ := carryOut_succeeds hhost hrule.coherent hfits hspared
      exact nomatch hinterrupted.symm.trans hdone
    · exact nomatch h

/-- Both nodes of the pattern at one node: the arc does not fit, and nothing
happens. -/
theorem apply_refused_removeEdge :
    let o : RuleOption := { nodes := [some ⟨0⟩, some ⟨0⟩], arcs := [some ⟨0⟩] }
    ∃ failure, (apply (.edge true) .removeEdge o).result = .error failure ∧
      (apply (.edge true) .removeEdge o).host = .edge true ∧
      (failure.cause = .optionShape "remove edge" ∨ failure.cause = .staleOption) := by
  intro o
  obtain ⟨failure, hfailure⟩ : ∃ failure,
      (apply (.edge true) .removeEdge o).result = .error failure := ⟨_, rfl⟩
  rcases apply_refused (Graph.edge_wellFormed true) GrammarRule.removeEdge_built hfailure with
    ⟨hhost, hcause⟩ | ⟨-, hnot⟩
  · exact ⟨failure, hfailure, hhost, hcause⟩
  · exact absurd ⟨nofun, nofun⟩ hnot

/-- A node by itself. -/
def Graph.lone : Graph where
  nodes := .ofElements [{ name := "a" }]

/-- The rule that keeps the first of two nodes, and puts a loop there. -/
def GrammarRule.keepLooped : GrammarRule where
  name := "keep looped"
  l := { nodes := .ofElements [{ name := "a" }, { name := "b" }] }
  k := .lone
  r :=
    { nodes := .ofElements [{ name := "a" }]
      arcs := .ofElements
        [{ name := "e", source := some ⟨0⟩, target := some ⟨0⟩, directed := true }] }
  nodeConditions := [{}, {}]
  arcConditions := []
  hyperarcConditions := []
  contextNodes := Correspondence.empty.insert ⟨0⟩ ⟨0⟩
  contextArcs := .empty
  contextHyperArcs := .empty

/-- The rule passes every check of a draft. -/
theorem GrammarRule.keepLooped_built : GrammarRule.keepLooped.Built :=
  ⟨{ name := "keep looped", l := keepLooped.l, r := keepLooped.r },
    ⟨Graph.membersDistinct_of_no_hyperarcs rfl, Graph.membersDistinct_of_no_hyperarcs rfl, nofun⟩,
    rfl⟩

/-- Nothing refers to anything. -/
theorem Graph.lone_wellFormed : Graph.lone.WellFormed :=
  Graph.wellFormed_of_copy_eq rfl (Graph.membersDistinct_of_no_hyperarcs rfl)

/-- **An option that keeps and deletes one node is accepted, and the loop is refused
after the node has gone.** -/
theorem apply_interrupted_keepLooped :
    let application := apply .lone .keepLooped { nodes := [some ⟨0⟩, some ⟨0⟩] }
    Graph.lone.WellFormed ∧ GrammarRule.keepLooped.Built ∧
      (∃ failure, application.result = .error failure ∧ failure.cause = .graph) ∧
      Graph.lone.nodes.keys = [⟨0⟩] ∧ application.host.nodes.keys = [] :=
  ⟨Graph.lone_wellFormed, GrammarRule.keepLooped_built, ⟨_, rfl, rfl⟩, by decide, by decide⟩

end GraphGrammar
