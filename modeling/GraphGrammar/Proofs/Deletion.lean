import GraphGrammar.Application.Deletion
import GraphGrammar.Proofs.Fitting
import GraphGrammar.Proofs.Rewriting

/-!
# What deletion leaves

Deleting the images of what a rule keeps no counterpart of empties their slots
and lets go of the deleted nodes wherever they are referred to. This is the
whole effect (`Deletes`), and a run of removals has it with the lists of what
was removed appended (`Deletes.append`). Removing a node that is not alive does
nothing, which is the effect too as long as the graph is well formed; but only
what was there is listed as removed (`Registry.Lists`).

The effect is stated with lists of removed keys and no order. Removing is idempotent and commutes
with itself, so the description of the whole deletion does not depend on the order in which an
application goes through L; the order shows in the report alone.
-/

namespace GraphGrammar

/-! ## Letting go of nodes

`Arc.without` and `HyperArc.without` are what is left of an element when several nodes have been
removed. They are defined for a list of nodes at once, so that no proof has to follow the
removals one by one. -/

/-- The arc with the ends at some nodes left dangling. -/
def Arc.without (gone : List NodeKey) (arc : Arc) : Arc :=
  { arc with
    source := arc.source.filter (!gone.contains ·)
    target := arc.target.filter (!gone.contains ·) }

/-- The hyperarc without some nodes. -/
def HyperArc.without (gone : List NodeKey) (hyperarc : HyperArc) : HyperArc :=
  { hyperarc with members := hyperarc.members.filter (!gone.contains ·) }

/-- An arc with no end at some nodes has nothing to let go of. -/
theorem Arc.without_of_disjoint {gone : List NodeKey} {arc : Arc}
    (h : ∀ node ∈ arc.ends, node ∉ gone) : arc.without gone = arc := by
  have hend : ∀ e : Option NodeKey, (∀ node, e = some node → node ∈ arc.ends) →
      e.filter (!gone.contains ·) = e := by
    intro e he
    cases e with
    | none => rfl
    | some node => simp [Option.filter, h node (he node rfl)]
  unfold Arc.without
  rw [hend arc.source fun node hnode => Arc.mem_ends.2 (.inl hnode),
    hend arc.target fun node hnode => Arc.mem_ends.2 (.inr hnode)]

/-- Where no node goes, an arc stays as it is. -/
theorem Arc.without_nil (arc : Arc) : arc.without [] = arc :=
  without_of_disjoint fun _ _ => List.not_mem_nil

/-- Letting go of some nodes and then of others is letting go of all of them. -/
theorem Arc.without_append (first second : List NodeKey) (arc : Arc) :
    arc.without (first ++ second) = (arc.without first).without second := by
  have hend : ∀ e : Option NodeKey, e.filter (!(first ++ second).contains ·)
      = (e.filter (!first.contains ·)).filter (!second.contains ·) := by
    intro e
    cases e with
    | none => rfl
    | some node => by_cases h : node ∈ first <;> simp [Option.filter, h]
  unfold Arc.without
  rw [hend, hend]

/-- Letting go of one node is detaching it, which is what a removal does. -/
theorem Arc.without_singleton (key : NodeKey) (arc : Arc) : arc.without [key] = arc.detach key := by
  have hend : ∀ e : Option NodeKey,
      e.filter (fun node => !List.contains [key] node) = if e = some key then none else e := by
    intro e
    cases e with
    | none => rfl
    | some node => by_cases h : node = key <;> simp [Option.filter, h]
  unfold Arc.without Arc.detach
  rw [hend, hend]

/-- Where no node goes, a hyperarc stays as it is. -/
theorem HyperArc.without_nil (hyperarc : HyperArc) : hyperarc.without [] = hyperarc := by
  show { hyperarc with members := hyperarc.members.filter fun _ => true } = hyperarc
  rw [List.filter_true]

/-- The same for a hyperarc. -/
theorem HyperArc.without_append (first second : List NodeKey) (hyperarc : HyperArc) :
    hyperarc.without (first ++ second) = (hyperarc.without first).without second := by
  unfold HyperArc.without
  dsimp only
  rw [List.filter_filter]
  congr 1
  refine List.filter_congr fun node _ => ?_
  simp [Bool.and_comm]

/-- Letting go of one node is taking it out of the members. -/
theorem HyperArc.without_singleton (key : NodeKey) (hyperarc : HyperArc) :
    hyperarc.without [key] = hyperarc.detach key := by
  unfold HyperArc.without HyperArc.detach
  congr 1
  refine List.filter_congr fun node _ => ?_
  rw [List.contains_cons, List.contains_nil, Bool.or_false, bne]

/-- An end stays where it is unless it was at one of the nodes. -/
theorem Arc.atEnd_without (gone : List NodeKey) (arc : Arc) (e : ArcEnd) :
    (arc.without gone).atEnd e = (arc.atEnd e).filter (!gone.contains ·) := by
  cases e <;> rfl

/-- The members that are left are those that were not among the nodes. -/
theorem HyperArc.mem_without {gone : List NodeKey} {hyperarc : HyperArc} {node : NodeKey} :
    node ∈ (hyperarc.without gone).members ↔ node ∈ hyperarc.members ∧ node ∉ gone := by
  simp [HyperArc.without]

/-! ## The effect of removals

`Deletes` relates two derivations. It has a field for each kind and one for the report, and it is
closed under doing one removal after another; that is how the loops over arcs, hyperarcs and
nodes are put together. -/

/-- Two graphs have the same name, labels and variables. No removal and no reattachment touches
these, so they are compared apart from the elements. -/
structure Graph.SameGlobals (g after : Graph) : Prop where
  name : after.name = g.name
  labels : after.globalLabels = g.globalLabels
  values : after.globalVariables = g.globalVariables

/-- A graph has the globals that it has. -/
theorem Graph.SameGlobals.refl (g : Graph) : g.SameGlobals g := ⟨rfl, rfl, rfl⟩

/-- Steps that leave the globals alone leave them alone together. -/
theorem Graph.SameGlobals.trans {g h k : Graph} (hgh : g.SameGlobals h) (hhk : h.SameGlobals k) :
    g.SameGlobals k :=
  ⟨hhk.name.trans hgh.name, hhk.labels.trans hgh.labels, hhk.values.trans hgh.values⟩

/-- Two reports list the same additions. -/
structure ApplyReport.SameAdditions (r after : ApplyReport) : Prop where
  nodes : after.addedNodes = r.addedNodes
  arcs : after.addedArcs = r.addedArcs
  hyperarcs : after.addedHyperArcs = r.addedHyperArcs

/-- Two reports list the same removals. -/
structure ApplyReport.SameRemovals (r after : ApplyReport) : Prop where
  nodes : after.removedNodes = r.removedNodes
  arcs : after.removedArcs = r.removedArcs
  hyperarcs : after.removedHyperArcs = r.removedHyperArcs

/-- What is removed from a registry is listed, if it is there and is removed
once. -/
def Registry.Lists {κ : Kind} {α : Type} (r : Registry κ α) (keys listed after : List (Key κ)) :
    Prop :=
  keys.Nodup → (∀ key ∈ keys, r.contains key = true) → after = listed ++ keys

namespace Registry.Lists

variable {κ : Kind} {α : Type} {r s : Registry κ α} {key : Key κ}
  {keys keys' listed middle after : List (Key κ)}

/-- If nothing is removed nothing is listed. -/
theorem nil : r.Lists [] listed listed := fun _ _ => (List.append_nil listed).symm

/-- What is there and is removed is listed at the end. -/
theorem singleton : r.Lists [key] listed (listed ++ [key]) := fun _ _ => rfl

/-- What is not there is not listed when it is removed. -/
theorem of_dead (hdead : r.get? key = none) : r.Lists [key] listed listed := fun _ halive => by
  obtain ⟨_, ha⟩ := contains_iff.1 (halive key List.mem_cons_self)
  exact nomatch hdead.symm.trans ha

/-- Lists of removals follow one another, if the first of them left alone what the second is
about. -/
theorem append (h : r.Lists keys listed middle) (h' : s.Lists keys' middle after)
    (hrest : ∀ key, key ∉ keys → s.contains key = r.contains key) :
    r.Lists (keys ++ keys') listed after := by
  intro hnodup halive
  obtain ⟨hnodup, hnodup', hne⟩ := List.nodup_append.1 hnodup
  have hmiddle : middle = listed ++ keys :=
    h hnodup fun key hkey => halive key (List.mem_append_left _ hkey)
  rw [h' hnodup' fun key hkey => ?_, hmiddle, List.append_assoc]
  rw [hrest key fun hgone => hne key hgone key hkey rfl]
  exact halive key (List.mem_append_right _ hkey)

end Registry.Lists

/-- **The whole effect of removing some elements.** Nodes, arcs and hyperarcs are listed
separately, since the removal of a node takes no arc with it: an arc at the node is left with a
dangling end. -/
structure Deletes (before after : Derivation) (nodes : List NodeKey) (arcs : List ArcKey)
    (hyperarcs : List HyperArcKey) : Prop where
  wellFormed : after.host.WellFormed
  node? : ∀ key, after.host.node? key = if key ∈ nodes then none else before.host.node? key
  arc? : ∀ key, after.host.arc? key =
    if key ∈ arcs then none else (before.host.arc? key).map (·.without nodes)
  hyperarc? : ∀ key, after.host.hyperarc? key =
    if key ∈ hyperarcs then none else (before.host.hyperarc? key).map (·.without nodes)
  nodes_length : after.host.nodes.cells.length = before.host.nodes.cells.length
  arcs_length : after.host.arcs.cells.length = before.host.arcs.cells.length
  hyperarcs_length : after.host.hyperarcs.cells.length = before.host.hyperarcs.cells.length
  globals : before.host.SameGlobals after.host
  additions : before.report.SameAdditions after.report
  removedNodes : before.host.nodes.Lists nodes before.report.removedNodes
    after.report.removedNodes
  removedArcs : before.host.arcs.Lists arcs before.report.removedArcs after.report.removedArcs
  removedHyperArcs : before.host.hyperarcs.Lists hyperarcs before.report.removedHyperArcs
    after.report.removedHyperArcs

namespace Deletes

variable {d d' d'' : Derivation} {nodes nodes' : List NodeKey} {arcs arcs' : List ArcKey}
  {hyperarcs hyperarcs' : List HyperArcKey}

/-- Removing nothing has the effect of removing nothing. -/
theorem refl (h : d.host.WellFormed) : Deletes d d [] [] [] where
  wellFormed := h
  node? _ := rfl
  arc? key := by
    simp only [List.not_mem_nil, if_false, Arc.without_nil, Option.map_id']
  hyperarc? key := by
    simp only [List.not_mem_nil, if_false, HyperArc.without_nil, Option.map_id']
  nodes_length := rfl
  arcs_length := rfl
  hyperarcs_length := rfl
  globals := .refl _
  additions := ⟨rfl, rfl, rfl⟩
  removedNodes := .nil
  removedArcs := .nil
  removedHyperArcs := .nil

/-- Removals one after another remove what each of them removes. What a removal leaves of an arc
depends on the nodes that went, and not on the order, so the lists are simply put one behind the
other. -/
theorem append (h : Deletes d d' nodes arcs hyperarcs)
    (h' : Deletes d' d'' nodes' arcs' hyperarcs') :
    Deletes d d'' (nodes ++ nodes') (arcs ++ arcs') (hyperarcs ++ hyperarcs') where
  wellFormed := h'.wellFormed
  node? key := by
    rw [h'.node?, h.node?]
    by_cases h : key ∈ nodes <;> by_cases h' : key ∈ nodes' <;> simp [h, h']
  arc? key := by
    rw [h'.arc?, h.arc?]
    by_cases h : key ∈ arcs <;> by_cases h' : key ∈ arcs' <;>
      simp [h, h', Arc.without_append, Function.comp_def]
  hyperarc? key := by
    rw [h'.hyperarc?, h.hyperarc?]
    by_cases h : key ∈ hyperarcs <;> by_cases h' : key ∈ hyperarcs' <;>
      simp [h, h', HyperArc.without_append, Function.comp_def]
  nodes_length := h'.nodes_length.trans h.nodes_length
  arcs_length := h'.arcs_length.trans h.arcs_length
  hyperarcs_length := h'.hyperarcs_length.trans h.hyperarcs_length
  globals := h.globals.trans h'.globals
  additions := ⟨h'.additions.nodes.trans h.additions.nodes,
    h'.additions.arcs.trans h.additions.arcs,
    h'.additions.hyperarcs.trans h.additions.hyperarcs⟩
  removedNodes := h.removedNodes.append h'.removedNodes fun key hkey =>
    congrArg Option.isSome ((h.node? key).trans (if_neg hkey))
  removedArcs := h.removedArcs.append h'.removedArcs fun key hkey =>
    (congrArg Option.isSome ((h.arc? key).trans (if_neg hkey))).trans Option.isSome_map
  removedHyperArcs := h.removedHyperArcs.append h'.removedHyperArcs fun key hkey =>
    (congrArg Option.isSome ((h.hyperarc? key).trans (if_neg hkey))).trans Option.isSome_map

/-- Removing an arc removes this arc. If it is not there nothing happens, and that is the effect
as well, with nothing listed as removed. -/
theorem removeArc (h : d.host.WellFormed) (key : ArcKey) :
    Deletes d (d.removeArc key) [] [key] [] := by
  unfold Derivation.removeArc
  cases hremove : d.host.removeArc key with
  | none =>
    have hdead : d.host.arc? key = none :=
      Registry.erase_eq_none_iff.1 (Option.map_eq_none_iff.1 hremove)
    refine { refl h with arc? := fun other => ?_, removedArcs := .of_dead hdead }
    show d.host.arc? other = _
    by_cases heq : other = key
    · rw [heq, hdead, if_pos (List.mem_singleton.2 rfl)]
    · simp [heq, Arc.without_nil]
  | some result =>
    obtain ⟨arc, host⟩ := result
    have hwellFormed := h.removeArc hremove
    obtain ⟨⟨_, arcs⟩, herase, heq⟩ := Option.map_eq_some_iff.1 hremove
    cases heq
    constructor
    · exact hwellFormed
    · exact fun _ => rfl
    · intro other
      refine (Registry.get?_erase herase other).trans ?_
      simp [Arc.without_nil, Graph.arc?]
    · exact (refl h).hyperarc?
    · rfl
    · exact Registry.length_cells_erase herase
    · rfl
    · exact ⟨rfl, rfl, rfl⟩
    · exact ⟨rfl, rfl, rfl⟩
    · exact .nil
    · exact .singleton
    · exact .nil

/-- Removing a hyperarc removes this hyperarc. -/
theorem removeHyperArc (h : d.host.WellFormed) (key : HyperArcKey) :
    Deletes d (d.removeHyperArc key) [] [] [key] := by
  unfold Derivation.removeHyperArc
  cases hremove : d.host.removeHyperArc key with
  | none =>
    have hdead : d.host.hyperarc? key = none :=
      Registry.erase_eq_none_iff.1 (Option.map_eq_none_iff.1 hremove)
    refine { refl h with hyperarc? := fun other => ?_, removedHyperArcs := .of_dead hdead }
    show d.host.hyperarc? other = _
    by_cases heq : other = key
    · rw [heq, hdead, if_pos (List.mem_singleton.2 rfl)]
    · simp [heq, HyperArc.without_nil]
  | some result =>
    obtain ⟨hyperarc, host⟩ := result
    have hwellFormed := h.removeHyperArc hremove
    obtain ⟨⟨_, hyperarcs⟩, herase, heq⟩ := Option.map_eq_some_iff.1 hremove
    cases heq
    constructor
    · exact hwellFormed
    · exact fun _ => rfl
    · exact (refl h).arc?
    · intro other
      refine (Registry.get?_erase herase other).trans ?_
      simp [HyperArc.without_nil, Graph.hyperarc?]
    · rfl
    · rfl
    · exact Registry.length_cells_erase herase
    · exact ⟨rfl, rfl, rfl⟩
    · exact ⟨rfl, rfl, rfl⟩
    · exact .nil
    · exact .nil
    · exact .singleton

/-- Nothing refers to a node that is not alive, so its removal takes nothing. -/
theorem refl_of_dead (h : d.host.WellFormed) {key : NodeKey} (hdead : d.host.node? key = none) :
    Deletes d d [key] [] [] := by
  have hgone : ¬ d.host.hasNode key = true := by
    rw [Graph.hasNode_iff, hdead]
    exact nofun
  constructor
  · exact h
  · intro other
    by_cases heq : other = key
    · rw [heq, hdead, if_pos (List.mem_singleton.2 rfl)]
    · rw [if_neg (by simpa using heq)]
  · intro other
    show d.host.arc? other = (d.host.arc? other).map _
    cases harc : d.host.arc? other with
    | none => rfl
    | some arc =>
      -- in a well-formed graph no end is at a node that is not there
      have hfree : key ∉ arc.ends := fun hmem => hgone (h.ends_alive other arc harc key hmem)
      rw [Option.map_some, Arc.without_singleton, Arc.detach_of_notMem hfree]
  · intro other
    show d.host.hyperarc? other = (d.host.hyperarc? other).map _
    cases hhyperarc : d.host.hyperarc? other with
    | none => rfl
    | some hyperarc =>
      have hfree : key ∉ hyperarc.members := fun hmem =>
        hgone (h.members_alive other hyperarc hhyperarc key hmem)
      rw [Option.map_some, HyperArc.without_singleton, HyperArc.detach_of_notMem hfree]
  · rfl
  · rfl
  · rfl
  · exact ⟨rfl, rfl, rfl⟩
  · exact ⟨rfl, rfl, rfl⟩
  · exact .of_dead hdead
  · exact .nil
  · exact .nil

/-- **Removing a node removes this node, and every reference to it.** The node is taken out, and
every arc and hyperarc is detached from it in the same step. -/
theorem removeNode (h : d.host.WellFormed) (key : NodeKey) :
    Deletes d (d.removeNode key) [key] [] [] := by
  unfold Derivation.removeNode
  cases hremove : d.host.removeNode key with
  | none =>
    -- the node is not there, and so nothing refers to it
    exact refl_of_dead h (Registry.erase_eq_none_iff.1 (Option.map_eq_none_iff.1 hremove))
  | some result =>
    obtain ⟨node, host⟩ := result
    have hwellFormed := h.removeNode hremove
    obtain ⟨⟨_, nodes⟩, herase, heq⟩ := Option.map_eq_some_iff.1 hremove
    cases heq
    constructor
    · exact hwellFormed
    · intro other
      refine (Registry.get?_erase herase other).trans ?_
      simp [Graph.node?]
    · intro other
      refine (Registry.get?_mapElements ..).trans ?_
      simp only [List.not_mem_nil, if_false, Arc.without_singleton]
      rfl
    · intro other
      refine (Registry.get?_mapElements ..).trans ?_
      simp only [List.not_mem_nil, if_false, HyperArc.without_singleton]
      rfl
    · exact Registry.length_cells_erase herase
    · exact Registry.length_cells_mapElements ..
    · exact Registry.length_cells_mapElements ..
    · exact ⟨rfl, rfl, rfl⟩
    · exact ⟨rfl, rfl, rfl⟩
    · exact .singleton
    · exact .nil
    · exact .nil

/-- Removing arcs one after another removes all of them. -/
theorem foldl_removeArc (keys : List ArcKey) :
    ∀ {d : Derivation}, d.host.WellFormed →
      Deletes d (keys.foldl Derivation.removeArc d) [] keys [] := by
  induction keys with
  | nil => exact fun h => refl h
  | cons key rest ih =>
    intro d h
    have hone := removeArc h key
    exact hone.append (ih hone.wellFormed)

/-- Removing hyperarcs one after another removes all of them. -/
theorem foldl_removeHyperArc (keys : List HyperArcKey) :
    ∀ {d : Derivation}, d.host.WellFormed →
      Deletes d (keys.foldl Derivation.removeHyperArc d) [] [] keys := by
  induction keys with
  | nil => exact fun h => refl h
  | cons key rest ih =>
    intro d h
    have hone := removeHyperArc h key
    exact hone.append (ih hone.wellFormed)

/-- Noting the ends that become free does not change what is removed. -/
theorem foldl_deleteNode (matched : List ArcKey) (images : List (NodeKey × NodeKey)) :
    ∀ {d : Derivation} (free : List FreeEnd), d.host.WellFormed →
      Deletes d (images.foldl (Deletion.deleteNode matched) (d, free)).1
        (images.map Prod.snd) [] [] := by
  induction images with
  | nil => exact fun _ h => refl h
  | cons image rest ih =>
    intro d free h
    have hone := removeNode h image.2
    exact hone.append (ih _ hone.wellFormed)

end Deletes

namespace Deletion

/-! ## Free ends

Before a node is removed, the ends of unmatched arcs at it are noted. Here is shown that noting
leaves the effect as it is; what the notes say is the subject of `GraphGrammar.Proofs.FreeEnds`
and `GraphGrammar.Proofs.DanglingEnds`. -/

/-- A free end is an end of an arc that is there and is no image. -/
theorem mem_freeEnds {host : Graph} {matched : List ArcKey} {lNode image : NodeKey} {f : FreeEnd}
    (h : f ∈ freeEnds host matched lNode image) :
    f.arc ∉ matched ∧ f.arc.index < host.arcs.cells.length := by
  unfold freeEnds at h
  obtain ⟨⟨arc, value⟩, hentry, hmem⟩ := List.mem_flatMap.1 h
  dsimp only at hmem
  split at hmem
  · exact nomatch hmem
  · rename_i hnew
    obtain ⟨e, -, rfl⟩ := List.mem_map.1 hmem
    exact ⟨fun hmatched => hnew (List.contains_iff_mem.2 hmatched),
      Registry.lt_of_get?_eq_some (Registry.mem_entries_iff.1 hentry)⟩

/-- Every note that is made is about an arc that is no image and that the host has. -/
theorem free_foldl_deleteNode (matched : List ArcKey) (images : List (NodeKey × NodeKey)) :
    ∀ {d : Derivation} (free : List FreeEnd), d.host.WellFormed →
      (∀ f ∈ free, f.arc ∉ matched ∧ f.arc.index < d.host.arcs.cells.length) →
      ∀ f ∈ (images.foldl (deleteNode matched) (d, free)).2,
        f.arc ∉ matched ∧ f.arc.index < d.host.arcs.cells.length := by
  induction images with
  | nil => exact fun _ _ hfree => hfree
  | cons image rest ih =>
    intro d free h hfree
    have hone := Deletes.removeNode h image.2
    have hnext := ih (free ++ freeEnds d.host matched image.1 image.2) hone.wellFormed
    rw [hone.arcs_length] at hnext
    refine hnext fun f hf => ?_
    rcases List.mem_append.1 hf with hf | hf
    · exact hfree f hf
    · exact mem_freeEnds hf

end Deletion

/-! ## Nothing is remarked

Deletion never adds a diagnostic: it does not know yet which free ends will find a place. -/

namespace Derivation

/-- Removing a node is not remarked upon. -/
theorem diagnostics_removeNode (d : Derivation) (key : NodeKey) :
    (d.removeNode key).report.diagnostics = d.report.diagnostics := by
  unfold removeNode
  split <;> rfl

/-- Removing an arc is not remarked upon. -/
theorem diagnostics_removeArc (d : Derivation) (key : ArcKey) :
    (d.removeArc key).report.diagnostics = d.report.diagnostics := by
  unfold removeArc
  split <;> rfl

/-- Removing a hyperarc is not remarked upon. -/
theorem diagnostics_removeHyperArc (d : Derivation) (key : HyperArcKey) :
    (d.removeHyperArc key).report.diagnostics = d.report.diagnostics := by
  unfold removeHyperArc
  split <;> rfl

end Derivation

/-- The whole deletion leaves the diagnostics as they were. -/
theorem Deletion.diagnostics_deleteAll (rule : GrammarRule) (o : RuleOption) (d : Derivation) :
    (deleteAll rule o d).1.report.diagnostics = d.report.diagnostics := by
  refine List.foldlRecOn (motive := fun state : Derivation × List FreeEnd =>
    state.1.report.diagnostics = d.report.diagnostics) _ _ ?_ fun _ h image _ =>
      (Derivation.diagnostics_removeNode _ image.2).trans h
  refine List.foldlRecOn (motive := fun d' : Derivation =>
    d'.report.diagnostics = d.report.diagnostics) _ _ ?_ fun _ h key _ =>
      (Derivation.diagnostics_removeHyperArc _ key).trans h
  exact List.foldlRecOn (motive := fun d' : Derivation =>
    d'.report.diagnostics = d.report.diagnostics) _ _ rfl fun _ h key _ =>
      (Derivation.diagnostics_removeArc _ key).trans h

/-! ## Everything outside the context

What goes is told by the rule and the assignment: an element of L without counterpart in R takes
its image with it. The lists of images are defined for any assignment, so that they can be used
where no option is at hand. -/

/-- The images of the elements of L outside the context. -/
def Correspondence.gone {κ : Kind} (c : Correspondence (Key κ) (Key κ)) (keys : List (Key κ))
    (image? : Key κ → Option (Key κ)) : List (Key κ) :=
  (keys.filter fun key => (c.right? key).isNone).filterMap image?

/-- What goes is the image of some element of L outside the context. -/
theorem Correspondence.mem_gone {κ : Kind} {c : Correspondence (Key κ) (Key κ)}
    {keys : List (Key κ)} {image? : Key κ → Option (Key κ)} {image : Key κ} :
    image ∈ c.gone keys image? ↔
      ∃ key ∈ keys, c.right? key = none ∧ image? key = some image := by
  simp [gone, and_assoc]

/-- Distinct elements outside the context have distinct images. So nothing is reported as removed
twice. -/
theorem Correspondence.nodup_gone {κ : Kind} {c : Correspondence (Key κ) (Key κ)}
    {keys : List (Key κ)} {image? : Key κ → Option (Key κ)} (hkeys : keys.Nodup)
    (hinj : ∀ {key other image}, image? key = some image → image? other = some image →
      key = other) : (c.gone keys image?).Nodup :=
  (hkeys.filter _).filterMap fun _ _ _ => hinj

/-- Of what is outside the context all is listed, if the images are distinct and there. -/
theorem Registry.Lists.of_gone {κ : Kind} {α : Type} {l r : Registry κ α}
    {c : Correspondence (Key κ) (Key κ)} {image? : Key κ → Option (Key κ)}
    {listed after : List (Key κ)} (h : r.Lists (c.gone l.keys image?) listed after)
    (hinj : ∀ {key other image}, image? key = some image → image? other = some image →
      key = other)
    (halive : ∀ {key image}, image? key = some image → r.contains image = true) :
    after = listed ++ c.gone l.keys image? := by
  refine h (Correspondence.nodup_gone l.nodup_keys hinj) fun image hgone => ?_
  obtain ⟨key, -, -, himage⟩ := Correspondence.mem_gone.1 hgone
  exact halive himage

namespace GrammarRule

/-- The images of the nodes of L outside the context. -/
def goneNodes (rule : GrammarRule) (a : Assignment) : List NodeKey :=
  rule.contextNodes.gone rule.l.nodes.keys a.node?

/-- The images of the arcs of L outside the context. -/
def goneArcs (rule : GrammarRule) (a : Assignment) : List ArcKey :=
  rule.contextArcs.gone rule.l.arcs.keys a.arc?

/-- The images of the hyperarcs of L outside the context. -/
def goneHyperArcs (rule : GrammarRule) (a : Assignment) : List HyperArcKey :=
  rule.contextHyperArcs.gone rule.l.hyperarcs.keys a.hyperarc?

/-- The nodes of L outside the context that have an image, each with its image. -/
def goneImages (rule : GrammarRule) (a : Assignment) : List (NodeKey × NodeKey) :=
  (rule.l.nodes.keys.filter fun key => (rule.contextNodes.right? key).isNone).filterMap
    fun key => (a.node? key).map (key, ·)

/-- A node of L outside the context, and its image. -/
theorem mem_goneImages {rule : GrammarRule} {a : Assignment} {key image : NodeKey} :
    (key, image) ∈ rule.goneImages a ↔
      rule.l.hasNode key = true ∧ rule.contextNodes.right? key = none ∧
        a.node? key = some image := by
  unfold goneImages
  rw [List.mem_filterMap]
  constructor
  · rintro ⟨other, hother, himage⟩
    obtain ⟨_, himage, heq⟩ := Option.map_eq_some_iff.1 himage
    cases heq
    obtain ⟨hkey, hnone⟩ := List.mem_filter.1 hother
    exact ⟨Registry.mem_keys_iff.1 hkey, Option.isNone_iff_eq_none.1 hnone, himage⟩
  · rintro ⟨hkey, hnone, himage⟩
    refine ⟨key, List.mem_filter.2 ⟨Registry.mem_keys_iff.2 hkey, ?_⟩, ?_⟩
    · rw [hnone]
      rfl
    · rw [himage]
      rfl

/-- They are gone through in the order of L. -/
theorem pairwise_goneImages (rule : GrammarRule) (a : Assignment) :
    (rule.goneImages a).Pairwise fun entry other => entry.1.index < other.1.index := by
  refine List.pairwise_filterMap.2 ((rule.l.nodes.pairwise_keys.filter _).imp ?_)
  intro key other hlt entry hentry entry' hentry'
  obtain ⟨_, -, rfl⟩ := Option.map_eq_some_iff.1 hentry
  obtain ⟨_, -, rfl⟩ := Option.map_eq_some_iff.1 hentry'
  exact hlt

/-- No node of L is gone through twice. -/
theorem nodup_goneImages (rule : GrammarRule) (a : Assignment) :
    ((rule.goneImages a).map Prod.fst).Nodup :=
  List.pairwise_map.2 ((rule.pairwise_goneImages a).imp fun hlt heq =>
    absurd (congrArg Key.index heq) (Nat.ne_of_lt hlt))

/-- Their images are the nodes that go. -/
theorem map_snd_goneImages (rule : GrammarRule) (a : Assignment) :
    (rule.goneImages a).map Prod.snd = rule.goneNodes a := by
  unfold goneImages
  rw [List.map_filterMap]
  refine List.filterMap_congr fun key _ => ?_
  rw [Option.map_map]
  exact Option.map_id'

/-- A node that goes is the image of a node of L outside the context. -/
theorem exists_of_mem_goneNodes {rule : GrammarRule} {a : Assignment} {image : NodeKey}
    (h : image ∈ rule.goneNodes a) : ∃ key node, (key, image) ∈ rule.goneImages a ∧
      rule.l.node? key = some node ∧ a.node? key = some image := by
  obtain ⟨⟨key, _⟩, hmem, rfl⟩ := List.mem_map.1 (rule.map_snd_goneImages a ▸ h)
  obtain ⟨hkey, -, himage⟩ := mem_goneImages.1 hmem
  obtain ⟨node, hnode⟩ := Graph.hasNode_iff.1 hkey
  exact ⟨key, node, hmem, hnode, himage⟩

/-- What goes is an image. -/
theorem goneNodes_subset (rule : GrammarRule) (a : Assignment) :
    rule.goneNodes a ⊆ a.nodeImages := by
  intro node hnode
  obtain ⟨key, -, -, himage⟩ := Correspondence.mem_gone.1 hnode
  exact Assignment.mem_nodeImages.2 ⟨key, himage⟩

end GrammarRule

section

variable {rule : GrammarRule} {o : RuleOption} {d : Derivation}

/-- Hyperarcs and arcs go first, before any node does. So a node takes with it only ends and
memberships of what is kept. -/
theorem deletes_beforeNodes (rule : GrammarRule) (o : RuleOption) (h : d.host.WellFormed) :
    Deletes d (Deletion.deleteHyperArcs rule o (Deletion.deleteArcs rule o d)) []
      (rule.goneArcs o.toAssignment) (rule.goneHyperArcs o.toAssignment) := by
  have harcs : Deletes d (Deletion.deleteArcs rule o d) [] (rule.goneArcs o.toAssignment) [] :=
    Deletes.foldl_removeArc _ h
  have hhyperarcs : Deletes _ (Deletion.deleteHyperArcs rule o (Deletion.deleteArcs rule o d)) []
      [] (rule.goneHyperArcs o.toAssignment) := Deletes.foldl_removeHyperArc _ harcs.wellFormed
  simpa only [List.append_nil, List.nil_append] using harcs.append hhyperarcs

/-- **Deletion removes the images of everything outside the context.** -/
theorem deletes_deleteAll (h : d.host.WellFormed) :
    Deletes d (Deletion.deleteAll rule o d).1 (rule.goneNodes o.toAssignment)
      (rule.goneArcs o.toAssignment) (rule.goneHyperArcs o.toAssignment) := by
  have hbefore := deletes_beforeNodes rule o h
  have hnodes := Deletes.foldl_deleteNode o.arcImages (rule.goneImages o.toAssignment) []
    hbefore.wellFormed
  rw [rule.map_snd_goneImages] at hnodes
  have hall := hbefore.append hnodes
  simp only [List.append_nil, List.nil_append] at hall
  exact hall

/-- A free end is an end of an arc that is no image. -/
theorem free_deleteAll (h : d.host.WellFormed) :
    ∀ f ∈ (Deletion.deleteAll rule o d).2,
      f.arc ∉ o.arcImages ∧ f.arc.index < d.host.arcs.cells.length := by
  have hbefore := deletes_beforeNodes rule o h
  rw [← hbefore.arcs_length]
  exact Deletion.free_foldl_deleteNode o.arcImages _ [] hbefore.wellFormed nofun

end

end GraphGrammar
