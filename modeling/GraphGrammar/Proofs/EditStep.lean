import GraphGrammar.Proofs.Editing
import GraphGrammar.Proofs.InPlace

/-!
# What one edit does

An edit does something to the elements of one kind, and only the removal of a node reaches those of
other kinds. What it does is told in terms that suit every kind alike: what is given, what becomes
of an element that is not removed (`Edit.onElement`), which key is issued and which is made void.
That is what `Registry.Edited` wants to know, so the facts on keys that follow from it follow for
all edits at once.

Beside this an edit keeps the graph well formed. Both together are what an edit that was not
refused has done (`Edit.Performed`). They are proved edit by edit, each in a lemma of its own
under the function that the edit is, and put together by cases on the edit
(`Graph.performed_of_outcome`). That an edit in place comes to the same is the matter of
`GraphGrammar.Proofs.InPlace`. -/

namespace GraphGrammar

open Attributed

/-- The indices of a well-formed graph, for any kind. -/
theorem Graph.WellFormed.indexed {g : Graph} (h : g.WellFormed) : ∀ κ, Indexed (g.registry κ)
  | .node => h.nodes_indexed
  | .arc => h.arcs_indexed
  | .hyperarc => h.hyperarcs_indexed

namespace Edit

/-- What an edit makes of a node that it does not remove. -/
def onNode (e : Edit) (key : NodeKey) (node : Node) : Node :=
  match e with
  | changeNode changed f _ => if changed = key then f node else node
  | renameNode named name => if named = key then renamed node name else node
  | _ => node

/-- What an edit makes of an arc that it does not remove. -/
def onArc (e : Edit) (key : ArcKey) (arc : Arc) : Arc :=
  match e with
  | removeNode node => arc.detach node
  | changeArc changed f _ => if changed = key then f arc else arc
  | setArcEnd changed e node => if changed = key then arc.withEnd e node else arc
  | renameArc named name => if named = key then renamed arc name else arc
  | _ => arc

/-- What an edit makes of a hyperarc that it does not remove. -/
def onHyperArc (e : Edit) (key : HyperArcKey) (hyperarc : HyperArc) : HyperArc :=
  match e with
  | removeNode node => hyperarc.detach node
  | changeHyperArc changed f _ => if changed = key then f hyperarc else hyperarc
  | addToHyperArc changed node => if changed = key then hyperarc.attach node else hyperarc
  | removeFromHyperArc changed node => if changed = key then hyperarc.detach node else hyperarc
  | renameHyperArc named name => if named = key then renamed hyperarc name else hyperarc
  | _ => hyperarc

/-- **What an edit makes of an element that it does not remove.** An element that is put
somewhere else in this way keeps its key; this is the whole of what "the element stays" means for
an edit. -/
def onElement (e : Edit) : (κ : Kind) → Key κ → Element κ → Element κ
  | .node => e.onNode
  | .arc => e.onArc
  | .hyperarc => e.onHyperArc

end Edit

/-! ## Edits that are not refused

An edit that checks something and is not refused has found what it checks. What it does then is
the same as what an edit does that does not check, so the lemmas about the unchecked edits apply:
adding under a given name is adding with numbering where there is nothing to number. -/

@[simp] theorem HyperArc.nameOf_attach (hyperarc : HyperArc) (node : NodeKey) :
    nameOf (hyperarc.attach node) = nameOf hyperarc := by
  unfold HyperArc.attach
  split <;> rfl

namespace Graph

variable {g after : Graph}

/-- Where a name is free, it does not matter that one could be made up. -/
theorem of_addNode_eq_ok {node : Node} {key : NodeKey} (h : g.addNode node = .ok (key, after)) :
    g.addNodeUnique node = (key, after) := by
  unfold addNode at h
  split at h
  · exact nomatch h
  · rename_i hfree
    rw [← Registry.pushUnique_of_free (Bool.eq_false_iff.2 hfree)] at h
    exact Except.ok.inj h

/-- The check of the ends is the same for both ways of adding an arc. -/
theorem of_addArc_eq_ok {arc : Arc} {key : ArcKey} (h : g.addArc arc = .ok (key, after)) :
    g.addArcUnique arc = .ok (key, after) := by
  unfold addArc at h
  split at h
  · exact nomatch h
  · rename_i hfree
    rw [← Registry.pushUnique_of_free (Bool.eq_false_iff.2 hfree)] at h
    exact h

theorem of_addHyperArc_eq_ok {hyperarc : HyperArc} {key : HyperArcKey}
    (h : g.addHyperArc hyperarc = .ok (key, after)) :
    g.addHyperArcUnique hyperarc = .ok (key, after) := by
  unfold addHyperArc at h
  split at h
  · exact nomatch h
  · rename_i hfree
    rw [← Registry.pushUnique_of_free (Bool.eq_false_iff.2 hfree)] at h
    exact h

/-- If an end was set, the node was alive, and the arc was changed in place. -/
theorem of_setArcEnd_eq_ok {key : ArcKey} {e : ArcEnd} {node : Option NodeKey}
    (h : g.setArcEnd key e node = .ok after) :
    (∀ n, node = some n → g.hasNode n = true) ∧ after = g.modifyArc key (·.withEnd e node) := by
  unfold setArcEnd at h
  split at h
  · exact nomatch h
  rename_i hnone
  split at h
  · cases h
    refine ⟨fun n hn => ?_, rfl⟩
    simpa [hn, Option.filter_eq_none_iff] using hnone
  · exact nomatch h

/-- If a member was added, the node was alive, and the hyperarc was changed in place. -/
theorem of_addToHyperArc_eq_ok {key : HyperArcKey} {node : NodeKey}
    (h : g.addToHyperArc key node = .ok after) :
    g.hasNode node = true ∧ after = g.modifyHyperArc key (·.attach node) := by
  unfold addToHyperArc at h
  split at h
  · exact nomatch h
  rename_i hnode
  split at h
  · cases h
    exact ⟨by simpa using hnode, rfl⟩
  · exact nomatch h

theorem of_removeFromHyperArc_eq_ok {key : HyperArcKey} {node : NodeKey}
    (h : g.removeFromHyperArc key node = .ok after) :
    after = g.modifyHyperArc key (·.detach node) := by
  unfold removeFromHyperArc at h
  split at h
  · cases h
    rfl
  · exact nomatch h

/-- **There are no names to repair in a graph whose indices tell the truth.** -/
theorem repairNames_of_indexed (h : ∀ κ, Indexed (g.registry κ)) : g.repairNames = (g, 0) := by
  have hnodes : g.nodes.repair = (g.nodes, 0) := Registry.repair_of_indexed (h .node)
  have harcs : g.arcs.repair = (g.arcs, 0) := Registry.repair_of_indexed (h .arc)
  have hhyperarcs : g.hyperarcs.repair = (g.hyperarcs, 0) :=
    Registry.repair_of_indexed (h .hyperarc)
  unfold repairNames
  rw [hnodes, harcs, hhyperarcs]

end Graph

namespace Edit

/-- The element of a kind that an edit adds. -/
def given : Edit → (κ : Kind) → Option (Element κ)
  | addNode node, .node => some node
  | addNodeUnique node, .node => some node
  | addArc arc, .arc => some arc
  | addArcUnique arc, .arc => some arc
  | addHyperArc hyperarc _, .hyperarc => some hyperarc
  | addHyperArcUnique hyperarc _, .hyperarc => some hyperarc
  | _, _ => none

namespace Keys

/-- The key of a kind that was issued. -/
def issuedOf (keys : Keys) (κ : Kind) : Option (Key κ) := keys.issued.bind (·.key? κ)

/-- The key of a kind that was made void. -/
def removedOf (keys : Keys) (κ : Kind) : Option (Key κ) := keys.removed.bind (·.key? κ)

end Keys

/-- What an edit did to a graph. This is a statement about the graphs before and after, so that
an induction over a history has it ready at each step. It says nothing of names, which are the
concern of `WellFormed`. -/
structure Performed (g : Graph) (e : Edit) (keys : Keys) (after : Graph) : Prop where
  wellFormed : after.WellFormed
  edited : ∀ κ, (g.registry κ).Edited (e.given κ) (e.onElement κ) (keys.issuedOf κ)
    (keys.removedOf κ) (after.registry κ)

namespace Performed

variable {g graph : Graph}

/-! ### One edit at a time

Each lemma is named after the edit it is about and speaks of the graph before and after. Adding
with and without numbering share a lemma, which is why those three take the edit as a parameter
and ask only for what it gives and what it leaves alone. -/

/-- An edit that finds nothing to do. -/
theorem nothing (h : g.WellFormed) {e : Edit} (hf : ∀ κ key a, e.onElement κ key a = a) :
    Performed g e {} g :=
  ⟨h, fun κ => .unchanged (hf κ)⟩

/-- Adding a node, under its own name or another. The arcs and hyperarcs stay as they are. -/
theorem addNodeUnique (h : g.WellFormed) {e : Edit} {node : Node} {key : NodeKey}
    (hgiven : ∀ κ, e.given κ = (Edit.addNodeUnique node).given κ)
    (hf : ∀ κ key a, e.onElement κ key a = a) (hadd : g.addNodeUnique node = (key, graph)) :
    Performed g e (.issue key) graph := by
  cases hadd
  exact ⟨h.addNodeUnique node, fun
    | .node => .added node (hgiven .node) (hf .node)
    | .arc => .unchanged (hf .arc)
    | .hyperarc => .unchanged (hf .hyperarc)⟩

/-- Adding an arc whose ends were asked for. -/
theorem addArcUnique (h : g.WellFormed) {e : Edit} {arc : Arc} {key : ArcKey}
    (hgiven : ∀ κ, e.given κ = (Edit.addArcUnique arc).given κ)
    (hf : ∀ κ key a, e.onElement κ key a = a) (hadd : g.addArcUnique arc = .ok (key, graph)) :
    Performed g e (.issue key) graph := by
  obtain ⟨hends, -⟩ := Graph.of_addArcUnique_eq_ok hadd
  rw [Graph.addArcUnique_eq_ok hends] at hadd
  cases hadd
  exact ⟨h.pushArc hends, fun
    | .node => .unchanged (hf .node)
    | .arc => .added arc (hgiven .arc) (hf .arc)
    | .hyperarc => .unchanged (hf .hyperarc)⟩

/-- Adding a hyperarc whose members were asked for. That they are distinct is not asked by the
edit; it comes with the hyperarc. -/
theorem addHyperArcUnique (h : g.WellFormed) {e : Edit} {hyperarc : HyperArc} {key : HyperArcKey}
    (hdistinct : hyperarc.members.Nodup)
    (hgiven : ∀ κ, e.given κ = (Edit.addHyperArcUnique hyperarc hdistinct).given κ)
    (hf : ∀ κ key a, e.onElement κ key a = a)
    (hadd : g.addHyperArcUnique hyperarc = .ok (key, graph)) :
    Performed g e (.issue key) graph := by
  obtain ⟨hmembers, -⟩ := Graph.of_addHyperArcUnique_eq_ok hadd
  rw [Graph.addHyperArcUnique_eq_ok hmembers] at hadd
  cases hadd
  exact ⟨h.pushHyperArc hmembers hdistinct, fun
    | .node => .unchanged (hf .node)
    | .arc => .unchanged (hf .arc)
    | .hyperarc => .added hyperarc (hgiven .hyperarc) (hf .hyperarc)⟩

/-- **The one edit that reaches elements of all kinds.** Removing a node detaches every arc and
every hyperarc from it. If the node is not there, this is still what happens, but to elements
that are not attached to it, so they are as they were. -/
theorem removeNode (h : g.WellFormed) (key : NodeKey) :
    Performed g (.removeNode key) (g.afterRemoval key (g.removeNode key)).1
      (g.afterRemoval key (g.removeNode key)).2 := by
  cases hremove : g.removeNode key with
  | none =>
    -- nothing is attached to a node that is not there
    have hdead : ¬ g.hasNode key = true := by
      rw [Graph.removeNode, Option.map_eq_none_iff, Registry.erase_eq_none_iff] at hremove
      rw [Graph.hasNode, Registry.contains, hremove]
      exact Bool.false_ne_true
    refine ⟨h, fun kind => ?_⟩
    cases kind with
    | node => exact .unchanged fun _ _ => rfl
    | arc =>
      refine .changed rfl fun other => (Option.map_id' (x := g.arcs.get? other)).symm.trans
        (Option.map_congr fun arc harc => ?_)
      exact (Arc.detach_of_notMem fun hmem => hdead (h.ends_alive other arc harc key hmem)).symm
    | hyperarc =>
      refine .changed rfl fun other => (Option.map_id' (x := g.hyperarcs.get? other)).symm.trans
        (Option.map_congr fun hyperarc hhyperarc => ?_)
      exact (HyperArc.detach_of_notMem fun hmem =>
        hdead (h.members_alive other hyperarc hhyperarc key hmem)).symm
  | some removed =>
    obtain ⟨node, graph⟩ := removed
    have hwf := h.removeNode hremove
    unfold Graph.removeNode at hremove
    obtain ⟨⟨node, nodes⟩, herase, heq⟩ := Option.map_eq_some_iff.1 hremove
    cases heq
    refine ⟨hwf, fun kind => ?_⟩
    cases kind with
    | node => exact .removed herase fun _ _ => rfl
    | arc => exact .mapElements g.arcs none (·.detach key)
    | hyperarc => exact .mapElements g.hyperarcs none (·.detach key)

/-- Removing an arc that is there makes its key void; removing one that is not there does
nothing. -/
theorem removeArc (h : g.WellFormed) (key : ArcKey) :
    Performed g (.removeArc key) (g.afterRemoval key (g.removeArc key)).1
      (g.afterRemoval key (g.removeArc key)).2 := by
  cases hremove : g.removeArc key with
  | none => exact .nothing h fun κ _ _ => by cases κ <;> rfl
  | some removed =>
    obtain ⟨arc, graph⟩ := removed
    have hwf := h.removeArc hremove
    unfold Graph.removeArc at hremove
    obtain ⟨⟨arc, arcs⟩, herase, heq⟩ := Option.map_eq_some_iff.1 hremove
    cases heq
    exact ⟨hwf, fun
      | .node => .unchanged fun _ _ => rfl
      | .arc => .removed herase fun _ _ => rfl
      | .hyperarc => .unchanged fun _ _ => rfl⟩

theorem removeHyperArc (h : g.WellFormed) (key : HyperArcKey) :
    Performed g (.removeHyperArc key) (g.afterRemoval key (g.removeHyperArc key)).1
      (g.afterRemoval key (g.removeHyperArc key)).2 := by
  cases hremove : g.removeHyperArc key with
  | none => exact .nothing h fun κ _ _ => by cases κ <;> rfl
  | some removed =>
    obtain ⟨hyperarc, graph⟩ := removed
    have hwf := h.removeHyperArc hremove
    unfold Graph.removeHyperArc at hremove
    obtain ⟨⟨hyperarc, hyperarcs⟩, herase, heq⟩ := Option.map_eq_some_iff.1 hremove
    cases heq
    exact ⟨hwf, fun
      | .node => .unchanged fun _ _ => rfl
      | .arc => .unchanged fun _ _ => rfl
      | .hyperarc => .removed herase fun _ _ => rfl⟩

/-- An edit that changes an arc in place. -/
theorem modifyArc (h : g.WellFormed) {e : Edit} {key : ArcKey} {f : Arc → Arc}
    (hnode : ∀ other a, e.onNode other a = a)
    (harc : ∀ other a, e.onArc other a = if key = other then f a else a)
    (hhyperarc : ∀ other a, e.onHyperArc other a = a)
    (hf : ∀ arc, g.arc? key = some arc →
      nameOf (f arc) = nameOf arc ∧ ∀ node ∈ (f arc).ends, g.hasNode node = true) :
    Performed g e {} (g.modifyArc key f) where
  wellFormed := h.modifyArc hf
  edited
    | .node => .unchanged hnode
    | .arc => by
      have heq : e.onElement .arc = fun other a => if key = other then f a else a :=
        funext fun other => funext (harc other)
      rw [heq]
      exact .modify g.arcs _ key f
    | .hyperarc => .unchanged hhyperarc

/-- An edit that changes a hyperarc in place. -/
theorem modifyHyperArc (h : g.WellFormed) {e : Edit} {key : HyperArcKey}
    {f : HyperArc → HyperArc} (hnode : ∀ other a, e.onNode other a = a)
    (harc : ∀ other a, e.onArc other a = a)
    (hhyperarc : ∀ other a, e.onHyperArc other a = if key = other then f a else a)
    (hf : ∀ hyperarc, g.hyperarc? key = some hyperarc →
      nameOf (f hyperarc) = nameOf hyperarc
        ∧ (∀ node ∈ (f hyperarc).members, g.hasNode node = true)
        ∧ (f hyperarc).members.Nodup) :
    Performed g e {} (g.modifyHyperArc key f) where
  wellFormed := h.modifyHyperArc hf
  edited
    | .node => .unchanged hnode
    | .arc => .unchanged harc
    | .hyperarc => by
      have heq : e.onElement .hyperarc = fun other a => if key = other then f a else a :=
        funext fun other => funext (hhyperarc other)
      rw [heq]
      exact .modify g.hyperarcs _ key f

/-- Changing the attributes of a node. A position, a label or a variable is no business of the
index. -/
theorem changeNode (h : g.WellFormed) (key : NodeKey) (f : Node → Node)
    (keeps : ∀ node, (f node).name = node.name) :
    Performed g (.changeNode key f keeps) {} (g.modifyNode key f) where
  wellFormed := h.modifyNode keeps
  edited
    | .node => .modify g.nodes none key f
    | .arc => .unchanged fun _ _ => rfl
    | .hyperarc => .unchanged fun _ _ => rfl

/-- Changing the attributes of an arc, which keeps its ends and so keeps them alive. -/
theorem changeArc (h : g.WellFormed) (key : ArcKey) (f : Arc → Arc)
    (keeps : ∀ arc, (f arc).name = arc.name ∧
      (f arc).source = arc.source ∧ (f arc).target = arc.target) :
    Performed g (.changeArc key f keeps) {} (g.modifyArc key f) := by
  refine .modifyArc h (fun _ _ => rfl) (fun _ _ => rfl) (fun _ _ => rfl) fun arc harc => ?_
  obtain ⟨hname, hsource, htarget⟩ := keeps arc
  refine ⟨hname, fun node hnode => h.ends_alive key arc harc node ?_⟩
  rw [Arc.mem_ends, hsource, htarget] at hnode
  exact Arc.mem_ends.2 hnode

/-- Changing the attributes of a hyperarc, which keeps its members alive and distinct. -/
theorem changeHyperArc (h : g.WellFormed) (key : HyperArcKey) (f : HyperArc → HyperArc)
    (keeps : ∀ hyperarc, (f hyperarc).name = hyperarc.name ∧
      (f hyperarc).members = hyperarc.members) :
    Performed g (.changeHyperArc key f keeps) {} (g.modifyHyperArc key f) := by
  refine .modifyHyperArc h (fun _ _ => rfl) (fun _ _ => rfl) (fun _ _ => rfl) fun a ha => ?_
  obtain ⟨hname, hmembers⟩ := keeps a
  rw [hmembers]
  exact ⟨hname, h.members_alive key a ha, h.members_distinct key a ha⟩

/-- An end that is set is alive since it was asked for, and the other end is as alive as it was. -/
theorem setArcEnd (h : g.WellFormed) {key : ArcKey} {e : ArcEnd} {node : Option NodeKey}
    (hset : g.setArcEnd key e node = .ok graph) :
    Performed g (.setArcEnd key e node) {} graph := by
  obtain ⟨halive, rfl⟩ := Graph.of_setArcEnd_eq_ok hset
  refine .modifyArc h (fun _ _ => rfl) (fun _ _ => rfl) (fun _ _ => rfl) fun arc harc => ?_
  refine ⟨Arc.nameOf_withEnd arc e node, fun n hn => ?_⟩
  obtain ⟨f, hf⟩ := Arc.mem_ends_iff_atEnd.1 hn
  rw [Arc.atEnd_withEnd] at hf
  split at hf
  · exact halive n hf
  · exact h.ends_alive key arc harc n (Arc.mem_ends_iff_atEnd.2 ⟨f, hf⟩)

/-- The new member is alive since it was asked for, and it is not there twice. -/
theorem addToHyperArc (h : g.WellFormed) {key : HyperArcKey} {node : NodeKey}
    (hadd : g.addToHyperArc key node = .ok graph) :
    Performed g (.addToHyperArc key node) {} graph := by
  obtain ⟨halive, rfl⟩ := Graph.of_addToHyperArc_eq_ok hadd
  refine .modifyHyperArc h (fun _ _ => rfl) (fun _ _ => rfl) (fun _ _ => rfl) fun a ha => ?_
  refine ⟨a.nameOf_attach node, fun n hn => ?_,
    HyperArc.nodup_attach (h.members_distinct key a ha) node⟩
  rcases HyperArc.mem_attach.1 hn with hn | rfl
  · exact h.members_alive key a ha n hn
  · exact halive

/-- Dropping a member needs no check of the node: what is dropped need not be alive, and what
stays was. -/
theorem removeFromHyperArc (h : g.WellFormed) {key : HyperArcKey} {node : NodeKey}
    (hremove : g.removeFromHyperArc key node = .ok graph) :
    Performed g (.removeFromHyperArc key node) {} graph := by
  obtain rfl := Graph.of_removeFromHyperArc_eq_ok hremove
  refine .modifyHyperArc h (fun _ _ => rfl) (fun _ _ => rfl) (fun _ _ => rfl) fun a ha => ?_
  refine ⟨rfl, fun n hn => ?_, HyperArc.nodup_detach (h.members_distinct key a ha) node⟩
  exact h.members_alive key a ha n (HyperArc.mem_detach.1 hn).1

/-- Renaming a node keeps every node alive, so what refers to nodes by key is not affected. -/
theorem renameNode (h : g.WellFormed) {key : NodeKey} {name : Name}
    (hrename : g.renameNode key name = .ok graph) :
    Performed g (.renameNode key name) {} graph := by
  obtain ⟨nodes, hnodes, hgraph⟩ := bind_eq_ok_iff.1 hrename
  cases hgraph
  have hedited := Registry.Edited.rename none hnodes
  refine ⟨h.withNodes (h.nodes_indexed.rename hnodes) fun other hother => ?_, fun
    | .node => hedited
    | .arc => .unchanged fun _ _ => rfl
    | .hyperarc => .unchanged fun _ _ => rfl⟩
  exact hedited.contains_iff.2 ⟨.inl hother, nofun⟩

/-- Renaming an arc leaves its ends alone. -/
theorem renameArc (h : g.WellFormed) {key : ArcKey} {name : Name}
    (hrename : g.renameArc key name = .ok graph) :
    Performed g (.renameArc key name) {} graph := by
  obtain ⟨arcs, harcs, hgraph⟩ := bind_eq_ok_iff.1 hrename
  cases hgraph
  refine ⟨h.withArcs (h.arcs_indexed.rename harcs) fun other arc harc => ?_, fun
    | .node => .unchanged fun _ _ => rfl
    | .arc => .rename none harcs
    | .hyperarc => .unchanged fun _ _ => rfl⟩
  rw [Registry.get?_rename harcs] at harc
  split at harc
  · obtain ⟨given, hgiven, rfl⟩ := Option.map_eq_some_iff.1 harc
    exact h.ends_alive other given hgiven
  · exact h.ends_alive other arc harc

/-- Renaming a hyperarc leaves its members alone. -/
theorem renameHyperArc (h : g.WellFormed) {key : HyperArcKey} {name : Name}
    (hrename : g.renameHyperArc key name = .ok graph) :
    Performed g (.renameHyperArc key name) {} graph := by
  obtain ⟨hyperarcs, hhyperarcs, hgraph⟩ := bind_eq_ok_iff.1 hrename
  cases hgraph
  refine ⟨h.withHyperArcs (h.hyperarcs_indexed.rename hhyperarcs) fun other hyperarc hget => ?_, fun
    | .node => .unchanged fun _ _ => rfl
    | .arc => .unchanged fun _ _ => rfl
    | .hyperarc => .rename none hhyperarcs⟩
  rw [Registry.get?_rename hhyperarcs] at hget
  split at hget
  · obtain ⟨given, hgiven, rfl⟩ := Option.map_eq_some_iff.1 hget
    exact ⟨h.members_alive other given hgiven, h.members_distinct other given hgiven⟩
  · exact ⟨h.members_alive other hyperarc hget, h.members_distinct other hyperarc hget⟩

end Performed

end Edit

/-- **What an edit does that is not refused.** Each edit has its own lemma above, and here it is
only found out what the edit was given. -/
theorem Graph.performed_of_outcome {g after : Graph} (h : g.WellFormed) {e : Edit}
    {keys : Edit.Keys} (houtcome : g.outcome e = .ok (keys, after)) :
    e.Performed g keys after := by
  cases e with
  | addNode node =>
    obtain ⟨⟨key, graph⟩, hadd, hdone⟩ := bind_eq_ok_iff.1 houtcome
    cases hdone
    exact .addNodeUnique h (fun κ => by cases κ <;> rfl) (fun κ _ _ => by cases κ <;> rfl)
      (of_addNode_eq_ok hadd)
  | addNodeUnique node =>
    cases houtcome
    exact .addNodeUnique h (fun _ => rfl) (fun κ _ _ => by cases κ <;> rfl) rfl
  | addArc arc =>
    obtain ⟨⟨key, graph⟩, hadd, hdone⟩ := bind_eq_ok_iff.1 houtcome
    cases hdone
    exact .addArcUnique h (fun κ => by cases κ <;> rfl) (fun κ _ _ => by cases κ <;> rfl)
      (of_addArc_eq_ok hadd)
  | addArcUnique arc =>
    obtain ⟨⟨key, graph⟩, hadd, hdone⟩ := bind_eq_ok_iff.1 houtcome
    cases hdone
    exact .addArcUnique h (fun _ => rfl) (fun κ _ _ => by cases κ <;> rfl) hadd
  | addHyperArc hyperarc distinct =>
    obtain ⟨⟨key, graph⟩, hadd, hdone⟩ := bind_eq_ok_iff.1 houtcome
    cases hdone
    exact .addHyperArcUnique h distinct (fun κ => by cases κ <;> rfl)
      (fun κ _ _ => by cases κ <;> rfl) (of_addHyperArc_eq_ok hadd)
  | addHyperArcUnique hyperarc distinct =>
    obtain ⟨⟨key, graph⟩, hadd, hdone⟩ := bind_eq_ok_iff.1 houtcome
    cases hdone
    exact .addHyperArcUnique h distinct (fun _ => rfl) (fun κ _ _ => by cases κ <;> rfl) hadd
  | removeNode key =>
    cases houtcome
    exact .removeNode h key
  | removeArc key =>
    cases houtcome
    exact .removeArc h key
  | removeHyperArc key =>
    cases houtcome
    exact .removeHyperArc h key
  | changeNode key f keeps =>
    cases houtcome
    exact .changeNode h key f keeps
  | changeArc key f keeps =>
    cases houtcome
    exact .changeArc h key f keeps
  | changeHyperArc key f keeps =>
    cases houtcome
    exact .changeHyperArc h key f keeps
  | setArcEnd key e node =>
    obtain ⟨rfl, hset⟩ := map_mk_eq_ok_iff.1 houtcome
    exact .setArcEnd h hset
  | addToHyperArc key node =>
    obtain ⟨rfl, hadd⟩ := map_mk_eq_ok_iff.1 houtcome
    exact .addToHyperArc h hadd
  | removeFromHyperArc key node =>
    obtain ⟨rfl, hremove⟩ := map_mk_eq_ok_iff.1 houtcome
    exact .removeFromHyperArc h hremove
  | renameNode key name =>
    obtain ⟨rfl, hrename⟩ := map_mk_eq_ok_iff.1 houtcome
    exact .renameNode h hrename
  | renameArc key name =>
    obtain ⟨rfl, hrename⟩ := map_mk_eq_ok_iff.1 houtcome
    exact .renameArc h hrename
  | renameHyperArc key name =>
    obtain ⟨rfl, hrename⟩ := map_mk_eq_ok_iff.1 houtcome
    exact .renameHyperArc h hrename
  | repairNames =>
    cases houtcome
    -- in a well-formed graph there is nothing to repair
    rw [repairNames_of_indexed h.indexed]
    exact .nothing h fun κ _ _ => by cases κ <;> rfl

end GraphGrammar
