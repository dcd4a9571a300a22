import GraphGrammar.Application.Basic
import GraphGrammar.Proofs.Fate
import GraphGrammar.Proofs.Reattachment
import GraphGrammar.Proofs.Recognition

/-!
# Applying a rule never fails halfway

Once an option has passed the check, every step of the application succeeds.
`Replaced` says what the host is like before free ends are reattached: each
element has met its fate, and the elements of R outside the context have been
appended, connected to the places of their nodes. `exists_prepared` goes through the
steps once and establishes this; what is proved about applications elsewhere
starts from there.

The order of these facts follows the order of an application: the check, the deletion, the first
update, the additions, the moves, the globals, and last the free ends. Each phase has its own
module that says what it does to a derivation; here they are put one after the other, and the
conditions that each phase leaves to its caller are met.
-/

namespace GraphGrammar

open Attributed

variable {host : Graph} {rule : GrammarRule} {o : RuleOption}

/-! ## Places are alive

A node of R is at an image or at a new key. That an image survives the deletion is the point
where distinct images are needed: a node that is kept and deleted through two elements of L would
be gone when the additions refer to it. -/

/-- A node that is kept is there afterwards. Where it has become `b`, this is what is found under
its key. -/
theorem Registry.Rewritten.get?_of_fate {κ : Kind} {α : Type} [Attributed α]
    {r after : Registry κ α} {fate : Key κ → α → Option α} {added : List α}
    (h : Registry.Rewritten r after fate added) {key : Key κ} {a b : α} (ha : r.get? key = some a)
    (hfate : fate key a = some b) : after.get? key = some b := by
  rw [h.old key (Registry.lt_of_get?_eq_some ha), ha]
  exact hfate

namespace GrammarRule

/-- Where a node of R is: at the image of its counterpart, or at a key beyond
the nodes of the host. -/
theorem placeAt_eq_some {m n : NodeKey} :
    rule.placeAt host o.toAssignment m = some n ↔
      (∃ lKey, rule.contextNodes.left? m = some lKey ∧ o.node? lKey = some n) ∨
        rule.contextNodes.left? m = none ∧
          ∃ i : Nat, (rule.contextNodes.fresh rule.r.nodes.keys)[i]? = some m ∧
            (host.nodes.nextKeys rule.freshNodes.length)[i]? = some n :=
  Correspondence.placeIn_eq_some rule.r.nodes.nodup_keys

/-- **No image of what the rule keeps is an image of what it deletes.** It is weaker than
distinct images and all that the additions need: an arc that is gone is passed over when its
image would be changed, but a node or a hyperarc that is gone is missed later. -/
structure SparesContext (rule : GrammarRule) (a : Assignment) : Prop where
  node : ∀ key rKey image, rule.contextNodes.right? key = some rKey → a.node? key = some image →
    image ∉ rule.goneNodes a
  hyperarc : ∀ key rKey image, rule.contextHyperArcs.right? key = some rKey →
    a.hyperarc? key = some image → image ∉ rule.goneHyperArcs a

/-- Distinct images of what is kept and of what is deleted are different. -/
theorem sparesContext_of_distinct {a : Assignment} (hdistinct : a.Distinct) :
    rule.SparesContext a where
  node _ _ _ := Registry.notMem_gone hdistinct.node_inj
  hyperarc _ _ _ := Registry.notMem_gone hdistinct.hyperarc_inj

/-- The images of the hyperarcs of the context survive deletion. -/
theorem SparesContext.contains_hyperarc (hspared : rule.SparesContext o.toAssignment)
    (hrule : rule.Coherent) (hfits : o.Fits host rule) {deleted : Derivation}
    (hdeleted : Deletes { host } deleted (rule.goneNodes o.toAssignment)
      (rule.goneArcs o.toAssignment) (rule.goneHyperArcs o.toAssignment))
    {pair : HyperArcKey × HyperArc × HyperArc} (hpair : pair ∈ rule.hyperarcPairs) :
    ∃ image, o.hyperarc? pair.1 = some image ∧
      deleted.host.hyperarcs.contains image = true := by
  obtain ⟨-, rKey, hright, -⟩ := mem_pairsOf.1 hpair
  obtain ⟨image, given, himage, hgiven⟩ := hfits.exists_hyperarc? hrule hright
  have hkept : image ∉ rule.goneHyperArcs o.toAssignment :=
    hspared.hyperarc _ _ image hright himage
  have hhyperarc := hdeleted.hyperarc? image
  rw [if_neg hkept, hgiven] at hhyperarc
  exact ⟨image, himage, Registry.contains_iff.2 ⟨_, hhyperarc⟩⟩

variable (hrule : rule.Coherent) (hdistinct : o.toAssignment.Distinct) (hfits : o.Fits host rule)

include hrule hdistinct

/-- A context node of R is at the image of its counterpart, and that is kept. -/
theorem placeAt_of_right? {lKey rKey image : NodeKey}
    (hright : rule.contextNodes.right? lKey = some rKey) (himage : o.node? lKey = some image) :
    rule.placeAt host o.toAssignment rKey = some image ∧
      image ∉ rule.goneNodes o.toAssignment :=
  ⟨(Correspondence.placeIn_of_left? ((hrule.node_pairs.left?_iff lKey rKey).2 hright)).trans himage,
    Registry.notMem_gone hdistinct.node_inj hright himage⟩

include hfits

/-- **Different nodes of R are in different places.** -/
theorem placeAt_injective {m m' n : NodeKey}
    (h : rule.placeAt host o.toAssignment m = some n)
    (h' : rule.placeAt host o.toAssignment m' = some n) : m = m' := by
  refine hrule.node_pairs.placeIn_injective hdistinct.node_inj (fun lKey image himage => ?_) h h'
  exact Registry.lt_of_contains (hfits.of_node? hrule himage).2.2

/-- **The places of the nodes of R are alive** once the nodes of the host have
met their fates and the fresh ones have been appended. -/
theorem contains_placeAt {nodes : Registry .node Node}
    (hnodes : Registry.Rewritten host.nodes nodes (rule.nodeFate o)
      (rule.freshNodes.map fun entry => Addition.placedNode o entry.2)) {m n : NodeKey}
    (h : rule.placeAt host o.toAssignment m = some n) : nodes.contains n = true := by
  rcases placeAt_eq_some.1 h with ⟨lKey, hleft, himage⟩ | ⟨-, i, hi, hn⟩
  · have hright := (hrule.node_pairs.left?_iff lKey m).1 hleft
    obtain ⟨before, after, hbefore, hafter, -⟩ := hrule.node_pairs.exists_elements
      hrule.l_wellFormed.nodes_indexed hrule.r_wellFormed.nodes_indexed hright
    obtain ⟨given, hgiven⟩ := Graph.hasNode_iff.1 (hfits.of_node? hrule himage).2.2
    exact Registry.contains_iff.2 ⟨_, hnodes.get?_of_fate hgiven
      (nodeFate_image hdistinct hbefore hright hafter himage given)⟩
  · have hlt : i < rule.freshNodes.length := by
      have hlt := (List.getElem?_eq_some_iff.1 hn).1
      rwa [Registry.length_nextKeys] at hlt
    rw [Registry.getElem?_nextKeys _ hlt] at hn
    cases hn
    obtain ⟨name, hname⟩ := hnodes.new i _ (by
      rw [List.getElem?_map, List.getElem?_eq_getElem hlt]
      rfl)
    exact Registry.contains_iff.2 ⟨_, hname⟩

/-- The images of the arcs of the context survive deletion. -/
theorem contains_arc_of_pair {deleted : Derivation}
    (hdeleted : Deletes { host } deleted (rule.goneNodes o.toAssignment)
      (rule.goneArcs o.toAssignment) (rule.goneHyperArcs o.toAssignment))
    {pair : ArcKey × Arc × Arc} (hpair : pair ∈ rule.arcPairs) :
    ∃ image, o.arc? pair.1 = some image ∧ deleted.host.arcs.contains image = true := by
  obtain ⟨-, rKey, hright, -⟩ := mem_pairsOf.1 hpair
  obtain ⟨image, given, himage, hgiven⟩ := hfits.exists_arc? hrule hright
  have hkept : image ∉ rule.goneArcs o.toAssignment :=
    Registry.notMem_gone hdistinct.arc_inj hright himage
  have harc := hdeleted.arc? image
  rw [if_neg hkept, hgiven] at harc
  exact ⟨image, himage, Registry.contains_iff.2 ⟨_, harc⟩⟩

end GrammarRule

/-! ## The host before free ends are reattached

`Replaced` is the description of the host that the later modules go by. It says of each registry
which element is where, in one field each, and so it can be read without knowing in which order
the phases came. -/

/-- **What an application does to a host**, apart from reattaching free ends. The fates and the
additions are functions of the rule, the option and the host it is applied to. Two applications
are therefore compared by comparing these functions, and no step of the applier has to be looked
at again. -/
structure Replaced (host : Graph) (rule : GrammarRule) (o : RuleOption) (d : Derivation) :
    Prop where
  wellFormed : d.host.WellFormed
  nodes : Registry.Rewritten host.nodes d.host.nodes (rule.nodeFate o)
    (rule.freshNodes.map fun entry => Addition.placedNode o entry.2)
  arcs : Registry.Rewritten host.arcs d.host.arcs
    (rule.arcFate o (rule.placeAt host o.toAssignment) (Update.reversedArcs host rule o))
    (rule.freshArcs.map fun entry => entry.2.mapEnds (rule.placeAt host o.toAssignment))
  hyperarcs : Registry.Rewritten host.hyperarcs d.host.hyperarcs
    (rule.hyperarcFate o (rule.placeAt host o.toAssignment))
    (rule.freshHyperArcs.map fun entry => entry.2.mapMembers (rule.placeAt host o.toAssignment))
  globals : (Update.updateGlobals rule o host).SameGlobals d.host
  addedNodes : d.report.addedNodes = host.nodes.nextKeys rule.freshNodes.length
  addedArcs : d.report.addedArcs = host.arcs.nextKeys rule.freshArcs.length
  addedHyperArcs : d.report.addedHyperArcs = host.hyperarcs.nextKeys rule.freshHyperArcs.length
  removedNodes : d.report.removedNodes = rule.goneNodes o.toAssignment
  removedArcs : d.report.removedArcs = rule.goneArcs o.toAssignment
  removedHyperArcs : d.report.removedHyperArcs = rule.goneHyperArcs o.toAssignment

namespace Replaced

/-- The images of context nodes were in the host. -/
theorem lt_of_mem_nodeChanges (hrule : rule.Coherent) (hfits : o.Fits host rule)
    {f : Node → Node → Node → Node} {change : NodeKey × (Node → Node)}
    (hchange : change ∈ Update.nodeChanges rule o f) :
    change.1.index < host.nodes.cells.length := by
  obtain ⟨key, _, _, -, himage, -⟩ := Registry.mem_changesOf.1 hchange
  exact Registry.lt_of_contains (hfits.of_node? hrule himage).2.2

/-- No node is changed twice, since different nodes of the context have different images. -/
theorem nodup_nodeChanges (hdistinct : o.toAssignment.Distinct) (f : Node → Node → Node → Node) :
    ((Update.nodeChanges rule o f).map Prod.fst).Nodup :=
  Registry.nodup_changesOf nodup_pairsOf hdistinct.node_inj

/-- What the moves do, whether nodes move or not. -/
theorem moves_eq (rule : GrammarRule) (o : RuleOption) (d : Derivation) :
    (if rule.transformNodePositions then d.mapHost (Update.moveNodes rule o) else d)
      = { d with host := { d.host with
            nodes := d.host.nodes.modifyAll (rule.nodeMoves o) } } := by
  unfold GrammarRule.nodeMoves
  split
  · exact congrArg (Derivation.mk · d.report) (Update.moveNodes_eq d.host)
  · rfl

/-- The nodes of the host after deletion, the first update, the additions and the moves. The
additions come between two passes over the images, and as they have other keys the passes are
one. -/
theorem nodes_placed (hrule : rule.Coherent)
    (hdistinct : o.toAssignment.Distinct) (hfits : o.Fits host rule) {deleted : Derivation}
    (hdeleted : Deletes { host } deleted (rule.goneNodes o.toAssignment)
      (rule.goneArcs o.toAssignment) (rule.goneHyperArcs o.toAssignment)) :
    let placed := Addition.addNodes rule o (deleted.mapHost (Update.updateNodes rule o))
    let moved := if rule.transformNodePositions then placed.1.mapHost (Update.moveNodes rule o)
      else placed.1
    ∃ nodes, moved = { host := { deleted.host with nodes }
                       report := { deleted.report with
                         addedNodes := host.nodes.nextKeys rule.freshNodes.length } } ∧
      moved.host.WellFormed ∧
      Registry.Rewritten host.nodes nodes (rule.nodeFate o)
        (rule.freshNodes.map fun entry => Addition.placedNode o entry.2) ∧
      ∀ key, placed.2.lookup key = rule.placeAt host o.toAssignment key := by
  -- the registry of nodes after each of the steps
  let updates := Update.nodeChanges rule o fun before after node =>
    Attributed.moveAlong node before after
  let fresh := rule.freshNodes.map fun entry => Addition.placedNode o entry.2
  have hdeletedNodes : Registry.Rewritten host.nodes deleted.host.nodes
      (fun key node => if key ∈ rule.goneNodes o.toAssignment then none else some node) [] := by
    refine .of_get? hdeleted.nodes_length fun key => (hdeleted.node? key).trans ?_
    show _ = (host.node? key).bind _
    split <;> simp
  have hupdated : Registry.Rewritten host.nodes (deleted.host.nodes.modifyAll updates) _ [] :=
    hdeletedNodes.modifyAll (nodup_nodeChanges hdistinct _)
      fun _ => lt_of_mem_nodeChanges hrule hfits
  have hpushed : Registry.Rewritten host.nodes
      ((deleted.host.nodes.modifyAll updates).pushAll fresh) _ fresh := hupdated.pushAll fresh
  have hmoves : ((rule.nodeMoves o).map Prod.fst).Nodup :=
    (nodup_nodeChanges hdistinct _).sublist (GrammarRule.nodeMoves_sublist.map _)
  have hmoved := hpushed.modifyAll hmoves fun _ hchange =>
    lt_of_mem_nodeChanges hrule hfits (GrammarRule.nodeMoves_sublist.subset hchange)
  let updated : Derivation :=
    ⟨{ deleted.host with nodes := deleted.host.nodes.modifyAll updates }, deleted.report⟩
  have hupdate : deleted.mapHost (Update.updateNodes rule o) = updated :=
    congrArg (Derivation.mk · deleted.report) (Update.updateNodes_eq deleted.host)
  obtain ⟨hplaced, himages⟩ := Addition.addNodes_eq (o := o) hrule updated
  -- an update takes no keys, so the additions get those that the host has next
  have hkeys := Registry.nextKeys_congr hupdated.length rule.freshNodes.length
  have hnone : deleted.report.addedNodes = [] := hdeleted.additions.nodes
  rw [hkeys] at hplaced himages
  rw [hupdate]
  dsimp only
  rw [moves_eq, hplaced, hnone, List.nil_append]
  refine ⟨_, rfl, ?_, hmoved.congr fun key node => ?_, himages⟩
  · exact Update.wellFormed_modifyAll _
      (fun _ hchange node =>
        congrArg (·.name) (GrammarRule.toAttributes_of_mem_nodeMoves hchange node))
      (Addition.wellFormed_pushAll fresh (Update.wellFormed_nodeChanges
        (fun before after node => Update.nameOf_moveAlong node before after) hdeleted.wellFormed))
  · unfold GrammarRule.nodeFate Registry.fate
    split <;> rfl

/-- The arcs of the host after deletion, the update and the additions. -/
theorem arcs_placed (hrule : rule.Coherent) (hdistinct : o.toAssignment.Distinct)
    (hfits : o.Fits host rule) {deleted : Derivation}
    (hdeleted : Deletes { host } deleted (rule.goneNodes o.toAssignment)
      (rule.goneArcs o.toAssignment) (rule.goneHyperArcs o.toAssignment))
    (place : NodeKey → Option NodeKey) (reversed : List ArcKey) (fresh : List Arc) :
    Registry.Rewritten host.arcs
      ((deleted.host.arcs.modifyAll
        (Update.arcChanges rule o place reversed rule.arcPairs)).pushAll fresh)
      (rule.arcFate o place reversed) fresh := by
  have hdeletedArcs : Registry.Rewritten host.arcs deleted.host.arcs
      (fun key arc => if key ∈ rule.goneArcs o.toAssignment then none
        else some (arc.without (rule.goneNodes o.toAssignment))) [] := by
    refine .of_get? hdeleted.arcs_length fun key => (hdeleted.arc? key).trans ?_
    show _ = (host.arc? key).bind _
    cases host.arc? key <;> split <;> rfl
  have hupdated : Registry.Rewritten host.arcs (deleted.host.arcs.modifyAll
      (Update.arcChanges rule o place reversed rule.arcPairs)) _ [] := hdeletedArcs.modifyAll
    (Registry.nodup_changesOf nodup_pairsOf hdistinct.arc_inj) fun change hchange => by
      obtain ⟨key, _, _, -, himage, -⟩ := Registry.mem_changesOf.1 hchange
      exact Registry.lt_of_contains (hfits.contains_arc hrule himage)
  refine (hupdated.pushAll fresh).congr fun key arc => ?_
  unfold GrammarRule.arcFate Registry.fate
  split <;> rfl

/-- The hyperarcs of the host after deletion, the update and the additions. -/
theorem hyperarcs_placed (hrule : rule.Coherent) (hdistinct : o.toAssignment.Distinct)
    (hfits : o.Fits host rule) {deleted : Derivation}
    (hdeleted : Deletes { host } deleted (rule.goneNodes o.toAssignment)
      (rule.goneArcs o.toAssignment) (rule.goneHyperArcs o.toAssignment))
    (place : NodeKey → Option NodeKey) (fresh : List HyperArc) :
    Registry.Rewritten host.hyperarcs
      ((deleted.host.hyperarcs.modifyAll
        (Update.hyperarcChanges rule o place rule.hyperarcPairs)).pushAll fresh)
      (rule.hyperarcFate o place) fresh := by
  have hdeletedHyperArcs : Registry.Rewritten host.hyperarcs deleted.host.hyperarcs
      (fun key hyperarc => if key ∈ rule.goneHyperArcs o.toAssignment then none
        else some (hyperarc.without (rule.goneNodes o.toAssignment))) [] := by
    refine .of_get? hdeleted.hyperarcs_length fun key => (hdeleted.hyperarc? key).trans ?_
    show _ = (host.hyperarc? key).bind _
    cases host.hyperarc? key <;> split <;> rfl
  have hupdated : Registry.Rewritten host.hyperarcs (deleted.host.hyperarcs.modifyAll
      (Update.hyperarcChanges rule o place rule.hyperarcPairs)) _ [] := hdeletedHyperArcs.modifyAll
    (Registry.nodup_changesOf nodup_pairsOf hdistinct.hyperarc_inj) fun change hchange => by
      obtain ⟨key, _, _, -, himage, -⟩ := Registry.mem_changesOf.1 hchange
      exact Registry.lt_of_contains (hfits.contains_hyperarc hrule himage)
  refine (hupdated.pushAll fresh).congr fun key hyperarc => ?_
  unfold GrammarRule.hyperarcFate Registry.fate
  split <;> rfl

/-- **All that is outside the context is there to be removed**, and is listed. Each element was
there, because the option fits, and no two of them have one image. -/
theorem removed_eq (hrule : rule.Coherent) (hdistinct : o.toAssignment.Distinct)
    (hfits : o.Fits host rule) {deleted : Derivation}
    (hdeleted : Deletes { host } deleted (rule.goneNodes o.toAssignment)
      (rule.goneArcs o.toAssignment) (rule.goneHyperArcs o.toAssignment)) :
    deleted.report.removedNodes = rule.goneNodes o.toAssignment ∧
      deleted.report.removedArcs = rule.goneArcs o.toAssignment ∧
      deleted.report.removedHyperArcs = rule.goneHyperArcs o.toAssignment :=
  ⟨hdeleted.removedNodes.of_gone hdistinct.node_inj
      fun himage => (hfits.of_node? hrule himage).2.2,
    hdeleted.removedArcs.of_gone hdistinct.arc_inj (hfits.contains_arc hrule),
    hdeleted.removedHyperArcs.of_gone hdistinct.hyperarc_inj (hfits.contains_hyperarc hrule)⟩

end Replaced

/-- The globals that are left depend on the globals that were there only. -/
theorem Update.updateGlobals_congr {g after : Graph} (h : g.SameGlobals after) :
    (updateGlobals rule o g).SameGlobals (updateGlobals rule o after) := by
  unfold updateGlobals
  dsimp only
  rw [h.labels, h.values]
  exact ⟨h.name, rfl, rfl⟩

/-- **The derivation before the free ends are offered**: L was replaced by R, the nodes
of R are in their places, and nothing has been remarked. -/
structure Prepared (host : Graph) (rule : GrammarRule) (o : RuleOption)
    (images : Update.NodeImages) (d : Derivation) : Prop where
  replaced : Replaced host rule o d
  lookup : ∀ key, images.lookup key = rule.placeAt host o.toAssignment key
  silent : d.report.diagnostics = []

/-- The places of the nodes of R are alive when the free ends are offered to the embedding rules.
-/
theorem Prepared.hasNode {images : Update.NodeImages} {d : Derivation}
    (h : Prepared host rule o images d) (hrule : rule.Coherent)
    (hdistinct : o.toAssignment.Distinct) (hfits : o.Fits host rule) (m n : NodeKey)
    (hplace : images.lookup m = some n) : d.host.hasNode n = true :=
  rule.contains_placeAt hrule hdistinct hfits h.replaced.nodes ((h.lookup m).symm.trans hplace)

/-- **No step of an application is refused**, and what is left to do is to offer the free ends to
the embedding rules.

The phases are followed in their order. Deletion and the nodes come first and cannot be refused;
then come the four that could, arcs and hyperarcs of the context and arcs and hyperarcs that are
new. Each of them needs that the nodes of R are somewhere, at different places that are alive,
and that is known once the nodes are placed. -/
theorem exists_prepared (hhost : host.WellFormed) (hrule : rule.Coherent)
    (hdistinct : o.toAssignment.Distinct) (hfits : o.Fits host rule) :
    ∃ d images, Prepared host rule o images d ∧
      carryOut host rule o
        = Reattachment.reattachAll rule images (Deletion.deleteAll rule o { host }).2 d := by
  have hdeleted : Deletes { host } (Deletion.deleteAll rule o { host }).1
      (rule.goneNodes o.toAssignment) (rule.goneArcs o.toAssignment)
      (rule.goneHyperArcs o.toAssignment) := deletes_deleteAll hhost
  obtain ⟨nodes, hmoved, hwellFormed, hnodes, himages⟩ :=
    Replaced.nodes_placed hrule hdistinct hfits hdeleted
  obtain ⟨hremovedNodes, hremovedArcs, hremovedHyperArcs⟩ :=
    Replaced.removed_eq hrule hdistinct hfits hdeleted
  have hsilent : (Deletion.deleteAll rule o { host }).1.report.diagnostics = [] :=
    Deletion.diagnostics_deleteAll rule o { host }
  unfold carryOut
  dsimp only
  generalize (Deletion.deleteAll rule o { host }).1 = deleted at *
  generalize Addition.addNodes rule o (deleted.mapHost (Update.updateNodes rule o)) = placed at *
  rw [hmoved] at hwellFormed ⊢
  have hlookup : (placed.2.lookup ·) = rule.placeAt host o.toAssignment := funext himages
  have hplace : ∀ m n, placed.2.lookup m = some n → nodes.contains n = true := fun m n hm =>
    rule.contains_placeAt hrule hdistinct hfits hnodes ((himages m).symm.trans hm)
  have hinj : ∀ {m m' n}, placed.2.lookup m = some n → placed.2.lookup m' = some n → m = m' :=
    fun {m m' n} hm hm' => rule.placeAt_injective hrule hdistinct hfits
      ((himages m).symm.trans hm) ((himages m').symm.trans hm')
  have hdistinctMembers : ∀ entry ∈ rule.freshHyperArcs, entry.2.members.Nodup :=
    fun entry hentry => hrule.r_wellFormed.members_distinct entry.1 entry.2
      (Registry.mem_entries_iff.1 (List.mem_filter.1 hentry).1)
  -- the four steps that could be refused
  obtain ⟨harcs, hwellFormed⟩ := Update.updateArc_foldlM
    (Update.reversedArcs host rule o) rule.arcPairs hwellFormed hplace
      fun pair => rule.contains_arc_of_pair hrule hdistinct hfits hdeleted
  obtain ⟨hhyperarcs, hwellFormed⟩ := Update.updateHyperArc_foldlM rule.hyperarcPairs hwellFormed
    hplace fun pair =>
      (rule.sparesContext_of_distinct hdistinct).contains_hyperarc hrule hfits hdeleted
  obtain ⟨haddArcs, hwellFormed⟩ := Addition.foldlM_addArc (d := ⟨_, { deleted.report with
    addedNodes := host.nodes.nextKeys rule.freshNodes.length }⟩) rule.freshArcs hwellFormed hplace
  obtain ⟨haddHyperArcs, hwellFormed⟩ := Addition.foldlM_addHyperArc (d := ⟨_, _⟩) hinj
    rule.freshHyperArcs hwellFormed hplace hdistinctMembers
  refine ⟨_, placed.2, ⟨?replaced, himages, ?silent⟩,
    (bind_of_eq_ok (Derivation.mapHostM_eq_ok harcs) _).trans
      ((bind_of_eq_ok (Derivation.mapHostM_eq_ok hhyperarcs) _).trans
        ((bind_of_eq_ok haddArcs _).trans (bind_of_eq_ok haddHyperArcs _)))⟩
  case silent => exact hsilent
  have hnoArcs : deleted.report.addedArcs = [] := hdeleted.additions.arcs
  have hnoHyperArcs : deleted.report.addedHyperArcs = [] := hdeleted.additions.hyperarcs
  have harcsPlaced := Replaced.arcs_placed hrule hdistinct hfits hdeleted (placed.2.lookup ·)
    (Update.reversedArcs host rule o)
    (rule.freshArcs.map fun entry => entry.2.mapEnds (placed.2.lookup ·))
  have hhyperarcsPlaced := Replaced.hyperarcs_placed hrule hdistinct hfits hdeleted
    (placed.2.lookup ·)
    (rule.freshHyperArcs.map fun entry => entry.2.mapMembers (placed.2.lookup ·))
  constructor
  · exact Update.wellFormed_updateGlobals hwellFormed
  · exact hnodes
  · rw [← hlookup]
    exact harcsPlaced
  · rw [← hlookup]
    exact hhyperarcsPlaced
  · exact Update.updateGlobals_congr
      ⟨hdeleted.globals.name, hdeleted.globals.labels, hdeleted.globals.values⟩
  · rfl
  · show deleted.report.addedArcs ++ Registry.nextKeys (Registry.modifyAll _ _) _ = _
    rw [hnoArcs, List.nil_append]
    exact Registry.nextKeys_congr
      ((Registry.length_cells_modifyAll ..).trans hdeleted.arcs_length) _
  · show deleted.report.addedHyperArcs ++ Registry.nextKeys (Registry.modifyAll _ _) _ = _
    rw [hnoHyperArcs, List.nil_append]
    exact Registry.nextKeys_congr
      ((Registry.length_cells_modifyAll ..).trans hdeleted.hyperarcs_length) _
  · exact hremovedNodes
  · exact hremovedArcs
  · exact hremovedHyperArcs

/-- The application is what it does to the host and then the reattachment of free ends, in this
order. -/
theorem carryOut_eq (hhost : host.WellFormed) (hrule : rule.Coherent)
    (hdistinct : o.toAssignment.Distinct) (hfits : o.Fits host rule) :
    ∃ d images, Replaced host rule o d ∧
      carryOut host rule o
        = Reattachment.reattachAll rule images (Deletion.deleteAll rule o { host }).2 d ∧
      ∀ m n, images.lookup m = some n → d.host.hasNode n = true := by
  obtain ⟨d, images, hprepared, hcarry⟩ := exists_prepared hhost hrule hdistinct hfits
  exact ⟨d, images, hprepared.replaced, hcarry, hprepared.hasNode hrule hdistinct hfits⟩

/-! ## The whole application

An application returns a host beside its outcome, so that what a refusal leaves behind is a
matter of proof. What is shown is that only the check refuses, and it comes before anything is
changed. -/

/-- **What the check refuses leaves the host as it was**, and the cause is the one the check
gave. -/
theorem apply_of_check {failure : Report ApplyError} (h : o.check host rule = .error failure) :
    ∃ failure', apply host rule o = ⟨host, .error failure'⟩ ∧ failure'.cause = failure.cause := by
  unfold apply
  rw [h]
  exact ⟨_, rfl, rfl⟩

/-- What is carried out is what the application returns. -/
theorem apply_of_carryOut (hrule : rule.Coherent) (hfits : o.Fits host rule) {done : Derivation}
    (h : carryOut host rule o = .ok done) : apply host rule o = ⟨done.host, .ok done.report⟩ := by
  unfold apply
  rw [(RuleOption.check_eq_ok_iff hrule).2 hfits, h]
  rfl

/-- **The way of an application that was carried out**: L was replaced by R, and then only arcs
at free ends, which are no images, were reattached. Of the derivation in the middle there are two
things to know: what it is compared with the host, and that what comes after it stays at free
ends. -/
structure Applied (host : Graph) (rule : GrammarRule) (o : RuleOption) (d done : Derivation)
    (free : List ArcKey) : Prop where
  replaced : Replaced host rule o d
  reattaches : Reattaches d done free
  free_old : ∀ key ∈ free, key ∉ o.arcImages ∧ key.index < host.arcs.cells.length
  unembedded : rule.embeddingRules = [] → done.host = d.host

/-- An option that fits is applied: L is replaced by R, and then the free ends
are offered to the embedding rules. -/
theorem apply_eq_of_fits (hhost : host.WellFormed) (hrule : rule.Coherent)
    (hdistinct : o.toAssignment.Distinct) (hfits : o.Fits host rule) :
    let ends := (Deletion.deleteAll rule o { host }).2
    ∃ d done images, apply host rule o = ⟨done.host, .ok done.report⟩ ∧
      Replaced host rule o d ∧ Reattachment.reattachAll rule images ends d = .ok done ∧
      Reattaches d done (ends.map (·.arc)) := by
  intro ends
  obtain ⟨d, images, hreplaced, hcarry, hplace⟩ := carryOut_eq hhost hrule hdistinct hfits
  obtain ⟨done, hdone, hreattaches⟩ :=
    Reattachment.reattachAll_succeeds rule hreplaced.wellFormed hplace ends
  exact ⟨d, done, images, apply_of_carryOut hrule hfits (hcarry.trans hdone), hreplaced, hdone,
    hreattaches⟩

/-- **An option that fits is applied.** -/
theorem apply_of_fits (hhost : host.WellFormed) (hrule : rule.Coherent)
    (hdistinct : o.toAssignment.Distinct) (hfits : o.Fits host rule) :
    ∃ d done free, apply host rule o = ⟨done.host, .ok done.report⟩ ∧
      Applied host rule o d done free := by
  obtain ⟨d, done, images, happly, hreplaced, hdone, hreattaches⟩ :=
    apply_eq_of_fits hhost hrule hdistinct hfits
  refine ⟨d, done, _, happly, hreplaced, hreattaches, ?_, fun hno => ?_⟩
  · intro key hkey
    obtain ⟨f, hf, rfl⟩ := List.mem_map.1 hkey
    exact free_deleteAll (d := { host }) hhost f hf
  · obtain ⟨_, hsame⟩ := Reattachment.reattachAll_of_no_rules images d hno
      (Deletion.deleteAll rule o { host }).2
    cases hdone.symm.trans hsame
    rfl

/-- What was applied had passed the check. So a theorem that supposes an application to be
successful need not suppose that the option fits. -/
theorem fits_of_apply_eq_ok (hrule : rule.Coherent) {report : ApplyReport}
    (hresult : (apply host rule o).result = .ok report) : o.Fits host rule := by
  refine (RuleOption.check_eq_ok_iff hrule).1 ?_
  cases hcheck : o.check host rule with
  | error failure =>
    obtain ⟨_, happly, -⟩ := apply_of_check hcheck
    rw [happly] at hresult
    exact nomatch hresult
  | ok _ => rfl

/-- What was applied went the whole way. This is how a theorem about a successful application
begins: what is said of `Applied` holds of it. -/
theorem of_apply_eq_ok (hhost : host.WellFormed) (hrule : rule.Coherent)
    (hdistinct : o.toAssignment.Distinct) {report : ApplyReport}
    (hresult : (apply host rule o).result = .ok report) :
    ∃ d done free, apply host rule o = ⟨done.host, .ok done.report⟩ ∧
      Applied host rule o d done free :=
  apply_of_fits hhost hrule hdistinct (fits_of_apply_eq_ok hrule hresult)

/-- What was applied had L replaced by R, and then its free ends were offered. -/
theorem exists_reattachAll_of_apply_eq_ok (hhost : host.WellFormed) (hrule : rule.Coherent)
    (hdistinct : o.toAssignment.Distinct) {report : ApplyReport}
    (hresult : (apply host rule o).result = .ok report) :
    let ends := (Deletion.deleteAll rule o { host }).2
    ∃ d done images, apply host rule o = ⟨done.host, .ok done.report⟩ ∧
      Prepared host rule o images d ∧ Reattachment.reattachAll rule images ends d = .ok done ∧
      Reattaches d done (ends.map (·.arc)) := by
  intro ends
  have hfits := fits_of_apply_eq_ok hrule hresult
  obtain ⟨d, images, hprepared, hcarry⟩ := exists_prepared hhost hrule hdistinct hfits
  obtain ⟨done, hdone, hreattaches⟩ := Reattachment.reattachAll_succeeds rule
    hprepared.replaced.wellFormed (hprepared.hasNode hrule hdistinct hfits) ends
  exact ⟨d, done, images, apply_of_carryOut hrule hfits (hcarry.trans hdone), hprepared, hdone,
    hreattaches⟩

/-- An option that was recognized at some time is applied, or refused as stale
without a change. -/
theorem apply_of_shaped (hhost : host.WellFormed) (hrule : rule.Coherent)
    (hshaped : o.toAssignment.Shaped rule.l) (hdistinct : o.toAssignment.Distinct) :
    (∃ failure, apply host rule o = ⟨host, .error failure⟩ ∧ failure.cause = .staleOption) ∨
      ∃ report, (apply host rule o).result = .ok report ∧ (apply host rule o).host.WellFormed := by
  cases hcheck : o.check host rule with
  | error failure =>
    have hshape := (RuleOption.hasShapeOf_iff hrule).2 hshaped
    obtain ⟨failure', happly, hcause⟩ := apply_of_check hcheck
    exact .inl ⟨failure', happly, hcause.trans (RuleOption.cause_of_check_of_shape hshape hcheck)⟩
  | ok _ =>
    obtain ⟨d, done, _, happly, happlied⟩ :=
      apply_of_fits hhost hrule hdistinct ((RuleOption.check_eq_ok_iff hrule).1 hcheck)
    rw [happly]
    exact .inr ⟨done.report, rfl, happlied.reattaches.wellFormed⟩

/-- **Applying a rule never fails halfway.** For a rule that was built, a well-formed host and an
option whose images are distinct, wherever it comes from, either the option is refused for its
shape or as stale and the host is as it was, or the rule is applied and the host is well formed
again.

Distinct images are what the check does not look at; every option that a recognition returns has
them. The option may be stale, though, or come from another host or rule, and for those the check
is enough. -/
theorem apply_refused_or_wellFormed (hhost : host.WellFormed) (hrule : rule.Built)
    (hdistinct : o.toAssignment.Distinct) :
    (∃ failure, apply host rule o = ⟨host, .error failure⟩ ∧
      (failure.cause = .optionShape rule.name ∨ failure.cause = .staleOption)) ∨
    ∃ report, (apply host rule o).result = .ok report ∧ (apply host rule o).host.WellFormed := by
  cases hcheck : o.check host rule with
  | error failure =>
    obtain ⟨failure', happly, hcause⟩ := apply_of_check hcheck
    exact .inl ⟨failure', happly, hcause ▸ RuleOption.cause_of_check hcheck⟩
  | ok _ =>
    have hfits := (RuleOption.check_eq_ok_iff hrule.coherent).1 hcheck
    obtain ⟨d, done, _, happly, happlied⟩ :=
      apply_of_fits hhost hrule.coherent hdistinct hfits
    rw [happly]
    exact .inr ⟨done.report, rfl, happlied.reattaches.wellFormed⟩

/-- Removing an edge is carried out once, and refused as stale the second
time. -/
theorem apply_refused_or_wellFormed_removeEdge :
    let o : RuleOption := { nodes := [some ⟨0⟩, some ⟨1⟩], arcs := [some ⟨0⟩] }
    let once := apply (.edge true) .removeEdge o
    o.toAssignment.Distinct ∧ once.host.WellFormed ∧
      ∃ failure, apply once.host .removeEdge o = ⟨once.host, .error failure⟩ ∧
        failure.cause = .staleOption := by
  intro o once
  have hdistinct : o.toAssignment.Distinct := ⟨by decide, by decide, by decide⟩
  have honce : once.host.WellFormed := by
    rcases apply_refused_or_wellFormed (Graph.edge_wellFormed true) GrammarRule.removeEdge_built
      hdistinct with ⟨failure, hfailure, -⟩ | ⟨report, -, hwellFormed⟩
    · exact nomatch (congrArg Application.result hfailure)
    · exact hwellFormed
  obtain ⟨stale, hstale, hcause⟩ : ∃ failure,
      (apply once.host .removeEdge o).result = .error failure ∧ failure.cause = .staleOption :=
    ⟨_, rfl, rfl⟩
  refine ⟨hdistinct, honce, ?_⟩
  rcases apply_refused_or_wellFormed honce GrammarRule.removeEdge_built hdistinct with
    ⟨failure, hfailure, -⟩ | ⟨report, hreport, -⟩
  · rw [hfailure] at hstale
    cases hstale
    exact ⟨_, hfailure, hcause⟩
  · exact nomatch hstale.symm.trans hreport

end GraphGrammar
