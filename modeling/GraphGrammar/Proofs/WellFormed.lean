import GraphGrammar.Graph.Edit
import GraphGrammar.Proofs.FirstPlace
import GraphGrammar.Proofs.Outcome
import GraphGrammar.Proofs.Registry

/-!
# Edits keep graphs well formed

What each edit does to the elements of a graph, said once as what a key finds
afterwards, and that it keeps the invariant. Edits that check something first
(`setArcEnd`, `addArcUnique`, …) are shown to succeed wherever what they check
holds; what they do then is an equation, so that a chain of edits can be
followed without asking at each step whether it was refused.

The invariant is kept registry by registry: `WellFormed.withNodes`,
`WellFormed.withArcs` and `WellFormed.withHyperArcs` say what a new registry
of a kind has to bring.

The names of the lemmas tell the two directions apart. A lemma that ends in `_eq_ok` has for its
hypotheses what the edit asks, and gives its result; a lemma that begins with `of_` has for its
hypothesis that the edit was not refused, and gives what it must have found. The second kind is
needed where the outcome is known from elsewhere, as for a rule that was built or a graph that
was read. Of the edits that are never refused there is only what they keep.
-/

namespace GraphGrammar

open Attributed

/-! ## Ends and members

An end is looked at in two ways, as one of a list of nodes and as what is found at one of the two
places of an arc. The list is what being alive is about, and the places are what a rule moves, so
either is expressed by the other. -/

theorem Arc.mem_ends {arc : Arc} {node : NodeKey} :
    node ∈ arc.ends ↔ arc.source = some node ∨ arc.target = some node := by
  unfold Arc.ends
  cases arc.source with
  | none => cases arc.target with
    | none => simp
    | some t => simp [eq_comm]
  | some s => cases arc.target with
    | none => simp [eq_comm]
    | some t => simp [eq_comm]

/-- The nodes at which an arc ends are those found at its two ends. Invariants speak of the list,
and what an application does is told end by end. -/
theorem Arc.mem_ends_iff_atEnd {arc : Arc} {node : NodeKey} :
    node ∈ arc.ends ↔ ∃ e, arc.atEnd e = some node := by
  rw [Arc.mem_ends]
  constructor
  · rintro (h | h)
    · exact ⟨.source, h⟩
    · exact ⟨.target, h⟩
  · rintro ⟨e, h⟩
    cases e with
    | source => exact .inl h
    | target => exact .inr h

/-- Attaching one end leaves the other where it is. -/
@[simp] theorem Arc.atEnd_withEnd (arc : Arc) (e f : ArcEnd) (node : Option NodeKey) :
    (arc.withEnd e node).atEnd f = if f = e then node else arc.atEnd f := by
  cases e <;> cases f <;> rfl

@[simp] theorem Arc.nameOf_withEnd (arc : Arc) (e : ArcEnd) (node : Option NodeKey) :
    nameOf (arc.withEnd e node) = nameOf arc := by
  cases e <;> rfl

/-- The removal of a node reaches both ends of a loop. -/
theorem Arc.atEnd_detach (arc : Arc) (node : NodeKey) (e : ArcEnd) :
    (arc.detach node).atEnd e = if arc.atEnd e = some node then none else arc.atEnd e := by
  cases e <;> rfl

/-- An arc that is detached from a node keeps its other end, unless it was a loop. -/
theorem Arc.mem_ends_detach {arc : Arc} {key node : NodeKey} :
    node ∈ (arc.detach key).ends ↔ node ∈ arc.ends ∧ node ≠ key := by
  simp only [Arc.mem_ends_iff_atEnd, Arc.atEnd_detach]
  constructor
  · rintro ⟨e, h⟩
    split at h
    · exact nomatch h
    · rename_i hne
      exact ⟨⟨e, h⟩, fun heq => hne (heq ▸ h)⟩
  · rintro ⟨⟨e, h⟩, hne⟩
    refine ⟨e, ?_⟩
    rw [if_neg fun heq => hne (Option.some.inj (h.symm.trans heq)), h]

/-- An arc that has no end at a node is not changed by its removal. -/
theorem Arc.detach_of_notMem {arc : Arc} {node : NodeKey} (h : node ∉ arc.ends) :
    arc.detach node = arc := by
  rw [Arc.mem_ends, not_or] at h
  unfold Arc.detach
  rw [if_neg h.1, if_neg h.2]

theorem HyperArc.contains_iff {hyperarc : HyperArc} {node : NodeKey} :
    hyperarc.contains node = true ↔ node ∈ hyperarc.members := by
  rw [HyperArc.contains, List.contains_iff_mem]

/-- A node that is detached is no member any more, however often it was listed. -/
theorem HyperArc.mem_detach {hyperarc : HyperArc} {key node : NodeKey} :
    node ∈ (hyperarc.detach key).members ↔ node ∈ hyperarc.members ∧ node ≠ key := by
  unfold HyperArc.detach
  rw [List.mem_filter, bne_iff_ne]

/-- A node that is attached is a member, be it new or not. -/
theorem HyperArc.mem_attach {hyperarc : HyperArc} {key node : NodeKey} :
    node ∈ (hyperarc.attach key).members ↔ node ∈ hyperarc.members ∨ node = key := by
  unfold HyperArc.attach
  split
  · rename_i h
    exact ⟨.inl, fun h' => h'.elim id fun heq => heq ▸ HyperArc.contains_iff.1 h⟩
  · rw [List.mem_append, List.mem_singleton]

theorem HyperArc.nodup_detach {hyperarc : HyperArc} (h : hyperarc.members.Nodup) (key : NodeKey) :
    (hyperarc.detach key).members.Nodup := h.filter _

/-- Attaching a member is a matter of sets: one that is there is not listed again. This is why
members stay distinct through all edits. -/
theorem HyperArc.nodup_attach {hyperarc : HyperArc} (h : hyperarc.members.Nodup) (key : NodeKey) :
    (hyperarc.attach key).members.Nodup := by
  unfold HyperArc.attach
  split
  · exact h
  · rename_i hnew
    refine List.nodup_append.2 ⟨h, List.nodup_singleton _, fun a ha b hb heq => hnew ?_⟩
    rw [List.mem_singleton.1 hb] at heq
    exact HyperArc.contains_iff.2 (heq ▸ ha)

/-- A hyperarc that does not have a node as a member is not changed by its
removal. -/
theorem HyperArc.detach_of_notMem {hyperarc : HyperArc} {node : NodeKey}
    (h : node ∉ hyperarc.members) : hyperarc.detach node = hyperarc := by
  have hself : hyperarc.members.filter (· != node) = hyperarc.members :=
    List.filter_eq_self.2 fun a ha => bne_iff_ne.2 fun heq => h (heq ▸ ha)
  unfold HyperArc.detach
  rw [hself]

namespace Graph

variable {g after : Graph}

/-- To be alive is to be found. -/
theorem hasNode_iff {key : NodeKey} : g.hasNode key = true ↔ ∃ node, g.node? key = some node :=
  Registry.contains_iff

/-- A live end has a name. Rules compare ends by their names, so an end without one is a dangling
end or one that was left behind by a node that is gone. -/
theorem exists_nodeName {key : NodeKey} (h : g.hasNode key = true) :
    ∃ name, g.nodeName? (some key) = some name := by
  obtain ⟨node, hnode⟩ := hasNode_iff.1 h
  exact ⟨node.name, congrArg (Option.map fun node : Node => node.name) hnode⟩

/-! ## One registry at a time

The parts of the invariant hang together in one way only: ends and members refer to nodes. So
nodes may be exchanged as long as none of those that were alive is lost, and the two other kinds
as long as they refer to what is alive. -/

namespace WellFormed

/-- The graph from which every graph is edited is well formed, for want of elements. -/
theorem empty : Graph.empty.WellFormed where
  nodes_indexed := Indexed.empty
  arcs_indexed := Indexed.empty
  hyperarcs_indexed := Indexed.empty
  ends_alive _ _ h := nomatch h
  members_alive _ _ h := nomatch h
  members_distinct _ _ h := nomatch h

/-- Other nodes may take the place of those of a graph if each node that was alive still is.
Nothing is asked of the nodes that are new, since nothing refers to them yet. -/
theorem withNodes (h : g.WellFormed) {nodes : Registry .node Node} (hindexed : Indexed nodes)
    (halive : ∀ key, g.hasNode key = true → nodes.contains key = true) :
    ({ g with nodes } : Graph).WellFormed :=
  { h with
    nodes_indexed := hindexed
    ends_alive := fun key arc harc node hnode => halive node (h.ends_alive key arc harc node hnode)
    members_alive := fun key hyperarc hh node hnode =>
      halive node (h.members_alive key hyperarc hh node hnode) }

/-- Other arcs may take the place of those of a graph if all their ends are at live nodes. -/
theorem withArcs (h : g.WellFormed) {arcs : Registry .arc Arc} (hindexed : Indexed arcs)
    (halive : ∀ key arc, arcs.get? key = some arc → ∀ node ∈ arc.ends, g.hasNode node = true) :
    ({ g with arcs } : Graph).WellFormed :=
  { h with arcs_indexed := hindexed, ends_alive := halive }

/-- Other hyperarcs may take the place of those of a graph if their members are alive and
distinct. -/
theorem withHyperArcs (h : g.WellFormed) {hyperarcs : Registry .hyperarc HyperArc}
    (hindexed : Indexed hyperarcs)
    (hgood : ∀ key hyperarc, hyperarcs.get? key = some hyperarc →
      (∀ node ∈ hyperarc.members, g.hasNode node = true) ∧ hyperarc.members.Nodup) :
    ({ g with hyperarcs } : Graph).WellFormed :=
  { h with
    hyperarcs_indexed := hindexed
    members_alive := fun key hyperarc hh => (hgood key hyperarc hh).1
    members_distinct := fun key hyperarc hh => (hgood key hyperarc hh).2 }

/-! ## Changing attributes and connections

A change in place keeps a graph well formed if it keeps the name of the element and leaves its
references alive. -/

theorem modifyNode (h : g.WellFormed) {key : NodeKey} {f : Node → Node}
    (hf : ∀ node, nameOf (f node) = nameOf node) : (g.modifyNode key f).WellFormed :=
  h.withNodes (h.nodes_indexed.modify fun node _ => hf node) fun other hother => by
    rw [Registry.contains_modify]
    exact hother

/-- An arc is changed in place only under its own name, since the index is left alone. What is
asked of the changed arc is asked for the arc found under the key and for no other, so a change
may rely on what is known of that arc. -/
theorem modifyArc (h : g.WellFormed) {key : ArcKey} {f : Arc → Arc}
    (hf : ∀ arc, g.arc? key = some arc →
      nameOf (f arc) = nameOf arc ∧ ∀ node ∈ (f arc).ends, g.hasNode node = true) :
    (g.modifyArc key f).WellFormed := by
  refine h.withArcs (h.arcs_indexed.modify fun arc harc => (hf arc harc).1) ?_
  intro other arc harc
  rw [Registry.get?_modify] at harc
  split at harc
  · rename_i hkey
    obtain ⟨given, hgiven, rfl⟩ := Option.map_eq_some_iff.1 harc
    exact (hf given (hkey ▸ hgiven)).2
  · exact h.ends_alive other arc harc

/-- A hyperarc is changed in place under its own name, and only into one with distinct live
members. -/
theorem modifyHyperArc (h : g.WellFormed) {key : HyperArcKey} {f : HyperArc → HyperArc}
    (hf : ∀ hyperarc, g.hyperarc? key = some hyperarc →
      nameOf (f hyperarc) = nameOf hyperarc
        ∧ (∀ node ∈ (f hyperarc).members, g.hasNode node = true)
        ∧ (f hyperarc).members.Nodup) :
    (g.modifyHyperArc key f).WellFormed := by
  refine h.withHyperArcs (h.hyperarcs_indexed.modify fun a ha => (hf a ha).1) ?_
  intro other hyperarc hh
  rw [Registry.get?_modify] at hh
  split at hh
  · rename_i hkey
    obtain ⟨given, hgiven, rfl⟩ := Option.map_eq_some_iff.1 hh
    exact (hf given (hkey ▸ hgiven)).2
  · exact ⟨h.members_alive other hyperarc hh, h.members_distinct other hyperarc hh⟩

/-! ## Removing

To remove a node is the only edit that can make a reference dead, and it makes none. -/

/-- **A node is removed without a trace.** Whatever was attached to it is detached in the same
edit, so there is never an end at a node that is not alive. The key that is gone is among no ends
and no members afterwards, so it does no harm that it is dead. -/
theorem removeNode (h : g.WellFormed) {key : NodeKey} {node : Node}
    (hr : g.removeNode key = some (node, after)) : after.WellFormed := by
  unfold Graph.removeNode at hr
  obtain ⟨⟨node, nodes⟩, herase, heq⟩ := Option.map_eq_some_iff.1 hr
  cases heq
  have hnodes : ∀ other, other ≠ key → g.hasNode other = true → nodes.contains other = true := by
    intro other hne hother
    rw [Registry.contains, Registry.get?_erase herase, if_neg hne]
    exact hother
  constructor
  · exact h.nodes_indexed.erase herase
  · exact h.arcs_indexed.mapElements fun _ => rfl
  · exact h.hyperarcs_indexed.mapElements fun _ => rfl
  · intro other arc harc n hn
    rw [Graph.arc?, Registry.get?_mapElements] at harc
    obtain ⟨given, hgiven, rfl⟩ := Option.map_eq_some_iff.1 harc
    obtain ⟨hmem, hne⟩ := Arc.mem_ends_detach.1 hn
    exact hnodes n hne (h.ends_alive other given hgiven n hmem)
  · intro other hyperarc hh n hn
    rw [Graph.hyperarc?, Registry.get?_mapElements] at hh
    obtain ⟨given, hgiven, rfl⟩ := Option.map_eq_some_iff.1 hh
    obtain ⟨hmem, hne⟩ := HyperArc.mem_detach.1 hn
    exact hnodes n hne (h.members_alive other given hgiven n hmem)
  · intro other hyperarc hh
    rw [Graph.hyperarc?, Registry.get?_mapElements] at hh
    obtain ⟨given, hgiven, rfl⟩ := Option.map_eq_some_iff.1 hh
    exact HyperArc.nodup_detach (h.members_distinct other given hgiven) key

/-- Nothing refers to arcs, so one that is removed is missed by nothing but the index. -/
theorem removeArc (h : g.WellFormed) {key : ArcKey} {arc : Arc}
    (hr : g.removeArc key = some (arc, after)) : after.WellFormed := by
  unfold Graph.removeArc at hr
  obtain ⟨⟨arc, arcs⟩, herase, heq⟩ := Option.map_eq_some_iff.1 hr
  cases heq
  refine h.withArcs (h.arcs_indexed.erase herase) fun other arc harc => ?_
  rw [Registry.get?_erase herase] at harc
  split at harc
  · exact nomatch harc
  · exact h.ends_alive other arc harc

theorem removeHyperArc (h : g.WellFormed) {key : HyperArcKey} {hyperarc : HyperArc}
    (hr : g.removeHyperArc key = some (hyperarc, after)) : after.WellFormed := by
  unfold Graph.removeHyperArc at hr
  obtain ⟨⟨hyperarc, hyperarcs⟩, herase, heq⟩ := Option.map_eq_some_iff.1 hr
  cases heq
  refine h.withHyperArcs (h.hyperarcs_indexed.erase herase) fun other hyperarc hh => ?_
  rw [Registry.get?_erase herase] at hh
  split at hh
  · exact nomatch hh
  · exact ⟨h.members_alive other hyperarc hh, h.members_distinct other hyperarc hh⟩

/-! ## Adding

What is added refers to live nodes only, and adding makes no node die. -/

/-- A node is added under a name that is free, whatever it was called. -/
theorem addNodeUnique (h : g.WellFormed) (node : Node) : (g.addNodeUnique node).2.WellFormed := by
  refine h.withNodes (h.nodes_indexed.pushUnique node) fun key hkey => ?_
  show ((g.nodes.pushUnique node).2.get? key).isSome = true
  rw [Registry.get?_pushUnique]
  split
  · rfl
  · exact hkey

/-- An arc may be put in without being checked if its ends are known to be alive. This is what
`addArcUnique` comes to behind its check. -/
theorem pushArc (h : g.WellFormed) {arc : Arc} (hends : ∀ node ∈ arc.ends, g.hasNode node = true) :
    ({ g with arcs := (g.arcs.pushUnique arc).2 } : Graph).WellFormed := by
  refine h.withArcs (h.arcs_indexed.pushUnique arc) fun key given hgiven => ?_
  rw [Registry.get?_pushUnique] at hgiven
  split at hgiven
  · cases hgiven
    exact hends
  · exact h.ends_alive key given hgiven

theorem pushHyperArc (h : g.WellFormed) {hyperarc : HyperArc}
    (hmembers : ∀ node ∈ hyperarc.members, g.hasNode node = true)
    (hdistinct : hyperarc.members.Nodup) :
    ({ g with hyperarcs := (g.hyperarcs.pushUnique hyperarc).2 } : Graph).WellFormed := by
  refine h.withHyperArcs (h.hyperarcs_indexed.pushUnique hyperarc) fun key given hgiven => ?_
  rw [Registry.get?_pushUnique] at hgiven
  split at hgiven
  · cases hgiven
    exact ⟨hmembers, hdistinct⟩
  · exact ⟨h.members_alive key given hgiven, h.members_distinct key given hgiven⟩

end WellFormed

/-! ### One after the other -/

/-- Arcs that are put in one after the other go into the registry one after the other, and
nothing else of the graph takes part. So a chain of edits of the graph becomes a fold on one
registry. -/
theorem foldl_pushArc (arcs : List Arc) (g : Graph) :
    arcs.foldl (fun g arc => { g with arcs := (g.arcs.pushUnique arc).2 }) g
      = { g with arcs := arcs.foldl (fun r a => (r.pushUnique a).2) g.arcs } := by
  induction arcs generalizing g with
  | nil => rfl
  | cons arc rest ih => exact ih _

theorem foldl_pushHyperArc (hyperarcs : List HyperArc) (g : Graph) :
    hyperarcs.foldl (fun g hyperarc =>
      { g with hyperarcs := (g.hyperarcs.pushUnique hyperarc).2 }) g
      = { g with hyperarcs := hyperarcs.foldl (fun r a => (r.pushUnique a).2) g.hyperarcs } := by
  induction hyperarcs generalizing g with
  | nil => rfl
  | cons hyperarc rest ih => exact ih _

/-- What holds for one arc holds for any number. The ends are asked for in the graph one starts
with: arcs do not make nodes come or go. -/
theorem WellFormed.pushArcs (h : g.WellFormed) (arcs : List Arc)
    (hends : ∀ arc ∈ arcs, ∀ node ∈ arc.ends, g.hasNode node = true) :
    ({ g with arcs := arcs.foldl (fun r a => (r.pushUnique a).2) g.arcs } : Graph).WellFormed := by
  induction arcs generalizing g with
  | nil => exact h
  | cons arc rest ih =>
    exact ih (h.pushArc (hends arc List.mem_cons_self)) fun other hother =>
      hends other (List.mem_cons_of_mem _ hother)

theorem WellFormed.pushHyperArcs (h : g.WellFormed) (hyperarcs : List HyperArc)
    (hmembers : ∀ hyperarc ∈ hyperarcs,
      (∀ node ∈ hyperarc.members, g.hasNode node = true) ∧ hyperarc.members.Nodup) :
    ({ g with hyperarcs := hyperarcs.foldl (fun r a => (r.pushUnique a).2) g.hyperarcs } :
      Graph).WellFormed := by
  induction hyperarcs generalizing g with
  | nil => exact h
  | cons hyperarc rest ih =>
    obtain ⟨halive, hdistinct⟩ := hmembers hyperarc List.mem_cons_self
    exact ih (h.pushHyperArc halive hdistinct) fun other hother =>
      hmembers other (List.mem_cons_of_mem _ hother)

/-! ## Where edits are not refused

These are read from left to right. In the chain of an application the keys are known to be alive
before an edit is reached, and with these equations the chain becomes one of plain functions. -/

theorem checkEnds_eq_ok {arc : Arc} (h : ∀ node ∈ arc.ends, g.hasNode node = true) :
    g.checkEnds arc = .ok () := by
  unfold checkEnds
  rw [List.find?_eq_none.2 fun node hnode => by rw [h node hnode]; exact Bool.false_ne_true]

theorem checkMembers_eq_ok {hyperarc : HyperArc}
    (h : ∀ node ∈ hyperarc.members, g.hasNode node = true) : g.checkMembers hyperarc = .ok () := by
  unfold checkMembers
  rw [List.find?_eq_none.2 fun node hnode => by rw [h node hnode]; exact Bool.false_ne_true]

/-- The check looks at every end, so one that passes vouches for all. -/
theorem ends_alive_of_checkEnds {arc : Arc} (h : g.checkEnds arc = .ok ()) :
    ∀ node ∈ arc.ends, g.hasNode node = true := by
  unfold checkEnds at h
  split at h
  · rename_i hnone
    intro node hnode
    exact Bool.of_not_eq_false fun hdead =>
      List.find?_eq_none.1 hnone node hnode (by rw [hdead]; rfl)
  · exact nomatch h

theorem members_alive_of_checkMembers {hyperarc : HyperArc} (h : g.checkMembers hyperarc = .ok ()) :
    ∀ node ∈ hyperarc.members, g.hasNode node = true := by
  unfold checkMembers at h
  split at h
  · rename_i hnone
    intro node hnode
    exact Bool.of_not_eq_false fun hdead =>
      List.find?_eq_none.1 hnone node hnode (by rw [hdead]; rfl)
  · exact nomatch h

/-- An arc whose ends are alive is added, under its own name or a numbered one. -/
theorem addArcUnique_eq_ok {arc : Arc} (h : ∀ node ∈ arc.ends, g.hasNode node = true) :
    g.addArcUnique arc
      = .ok (g.arcs.nextKey, { g with arcs := (g.arcs.pushUnique arc).2 }) := by
  unfold addArcUnique
  rw [checkEnds_eq_ok h]
  rfl

theorem addHyperArcUnique_eq_ok {hyperarc : HyperArc}
    (h : ∀ node ∈ hyperarc.members, g.hasNode node = true) :
    g.addHyperArcUnique hyperarc
      = .ok (g.hyperarcs.nextKey, { g with hyperarcs := (g.hyperarcs.pushUnique hyperarc).2 }) := by
  unfold addHyperArcUnique
  rw [checkMembers_eq_ok h]
  rfl

/-- An arc that is not refused has its ends at live nodes. -/
theorem of_addArcUnique_eq_ok {arc : Arc} {key : ArcKey}
    (h : g.addArcUnique arc = .ok (key, after)) :
    (∀ node ∈ arc.ends, g.hasNode node = true)
      ∧ after = { g with arcs := (g.arcs.pushUnique arc).2 } := by
  unfold addArcUnique at h
  obtain ⟨⟨⟩, hcheck, hpush⟩ := bind_eq_ok_iff.1 h
  cases hpush
  exact ⟨ends_alive_of_checkEnds hcheck, rfl⟩

/-- A hyperarc that is not refused has live members. -/
theorem of_addHyperArcUnique_eq_ok {hyperarc : HyperArc} {key : HyperArcKey}
    (h : g.addHyperArcUnique hyperarc = .ok (key, after)) :
    (∀ node ∈ hyperarc.members, g.hasNode node = true)
      ∧ after = { g with hyperarcs := (g.hyperarcs.pushUnique hyperarc).2 } := by
  unfold addHyperArcUnique at h
  obtain ⟨⟨⟩, hcheck, hpush⟩ := bind_eq_ok_iff.1 h
  cases hpush
  exact ⟨members_alive_of_checkMembers hcheck, rfl⟩

/-- A live arc is attached to any live node, or left dangling. -/
theorem setArcEnd_eq_ok {key : ArcKey} {node : Option NodeKey} (e : ArcEnd)
    (hkey : g.arcs.contains key = true) (hnode : ∀ n, node = some n → g.hasNode n = true) :
    g.setArcEnd key e node = .ok (g.modifyArc key (·.withEnd e node)) := by
  have hfilter : node.filter (!g.hasNode ·) = none := by
    cases node with
    | none => rfl
    | some n => simp [Option.filter, hnode n rfl]
  unfold setArcEnd
  rw [hfilter]
  exact if_pos hkey

/-- A live node becomes a member of a live hyperarc, or stays one. -/
theorem addToHyperArc_eq_ok {key : HyperArcKey} {node : NodeKey}
    (hkey : g.hyperarcs.contains key = true) (hnode : g.hasNode node = true) :
    g.addToHyperArc key node = .ok (g.modifyHyperArc key (·.attach node)) := by
  unfold addToHyperArc
  rw [hnode, hkey]
  rfl

theorem removeFromHyperArc_eq_ok {key : HyperArcKey} (node : NodeKey)
    (hkey : g.hyperarcs.contains key = true) :
    g.removeFromHyperArc key node = .ok (g.modifyHyperArc key (·.detach node)) := by
  unfold removeFromHyperArc
  rw [hkey]
  rfl

end Graph

end GraphGrammar
