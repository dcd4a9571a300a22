import GraphGrammar.Proofs.Compaction
import GraphGrammar.Proofs.Naming

/-!
# Where everything is in a copy

A copy has the elements of a graph in their order and in slots without gaps, so the element
in some place among the live ones has the number of this place as its key
(`Registry.CopiedBy`). Ends and members are taken along by the renumbering of the nodes, which
keeps their order (`IsRenumbering`), and are let go if they are not alive. None of this asks
that names be distinct or indices be true (`Graph.copy_compacts`): names are given in turn,
as wherever a registry is built of a list.
-/

namespace GraphGrammar

open Attributed

/-! ## Renumberings -/

/-- **The pairs take one list of keys to another one**, and both lists ascend with them. Two
lists of keys have one renumbering at most that ascends. -/
structure IsRenumbering (pairs : List (NodeKey × NodeKey)) (keys keys' : List NodeKey) : Prop where
  fst : pairs.map Prod.fst = keys
  snd : pairs.map Prod.snd = keys'
  ascends : pairs.Pairwise fun pair other =>
    pair.1.index < other.1.index ∧ pair.2.index < other.2.index

/-! ## The elements of a kind -/

/-- **The elements of one registry are changed and put into another one**, each under the key
that is its place among the live ones and under the first name that is free. -/
structure Registry.CopiedBy {κ : Kind} {α : Type} [Attributed α] (f : α → α)
    (r copy : Registry κ α) : Prop where
  slots : copy.cells.length = r.keys.length
  keys : copy.keys = (List.range r.keys.length).map Key.mk
  copied : ∀ place key a, r.keys[place]? = some key → r.get? key = some a →
    ∃ name, copy.get? ⟨place⟩ = some (renamed (f a) name) ∧
      IsFirstFree (BorneBefore copy.nameUnder ⟨place⟩) (nameOf a) name

/-- Any registry that is made of the changed elements of another one is a copy of that in this
sense, whatever the change is, as long as it keeps the names. -/
theorem Registry.copiedBy_ofElements {κ : Kind} {α : Type} [Attributed α] (r : Registry κ α)
    {f : α → α} (hf : ∀ a, nameOf (f a) = nameOf a) :
    r.CopiedBy f (ofElements (r.elements.map f)) := by
  obtain ⟨hcompact, -, hlength⟩ := compact_indexed_ofElements (κ := κ) (r.elements.map f)
  have hslots : (ofElements (r.elements.map f) : Registry κ α).cells.length = r.keys.length := by
    rw [hlength, List.length_map, elements, List.length_map, keys, List.length_map]
  refine ⟨hslots, by rw [hcompact.keys_eq, hslots], fun place key a hkey ha => ?_⟩
  obtain ⟨hlt, rfl⟩ := List.getElem?_eq_some_iff.1 hkey
  have hlisted : (listed (r.elements.map f) : Registry κ α).get? ⟨place⟩ = some (f a) := by
    rw [get?_listed, List.getElem?_map, getElem?_elements hlt, ha]
    rfl
  obtain ⟨name, hname, hfirst⟩ := (namedInTurn_ofElements (r.elements.map f)).finds
    ⟨place⟩ (f a) hlisted
  exact ⟨name, hname, hf a ▸ hfirst⟩

/-! ## The whole graph -/

namespace Graph

/-- **What a copy is to a graph**, with the pairs that tell which node became which. -/
structure CopiedTo (g copy : Graph) (pairs : List (NodeKey × NodeKey)) : Prop where
  wellFormed : copy.WellFormed
  renumbered : IsRenumbering pairs g.nodes.keys copy.nodes.keys
  /-- Nodes that are not alive are in no pair, so ends and members there are let go. -/
  lookup_eq_none_iff : ∀ key, pairs.lookup key = none ↔ g.hasNode key = false
  nodes : g.nodes.CopiedBy id copy.nodes
  arcs : g.arcs.CopiedBy (·.mapEnds (pairs.lookup ·)) copy.arcs
  hyperarcs : g.hyperarcs.CopiedBy (·.mapMembers (pairs.lookup ·)) copy.hyperarcs
  name : copy.name = g.name
  globalLabels : copy.globalLabels = g.globalLabels
  globalVariables : copy.globalVariables = g.globalVariables

variable {g : Graph}

/-- Nodes refer to nothing, so they are copied as they are. -/
theorem copiedBy_nodes (g : Graph) : g.nodes.CopiedBy id g.copy.nodes := by
  have hnodes := g.nodes.copiedBy_ofElements (f := id) fun _ => rfl
  rwa [List.map_id] at hnodes

/-- The renumbering keeps the order of the live nodes. -/
theorem isRenumbering_renumbering (g : Graph) :
    IsRenumbering g.renumbering g.nodes.keys g.copy.nodes.keys where
  fst := by
    rw [renumbering, List.map_map]
    exact List.zipIdx_map_fst 0 g.nodes.keys
  snd := by
    rw [g.copiedBy_nodes.keys, List.range_eq_range', ← List.zipIdx_map_snd 0 g.nodes.keys,
      renumbering, List.map_map, List.map_map]
    rfl
  ascends := by
    refine List.pairwise_iff_getElem.2 fun i j hi hj hlt => ?_
    have hkeys := List.pairwise_iff_getElem.1 g.nodes.pairwise_keys i j
      (by simpa [renumbering] using hi) (by simpa [renumbering] using hj) hlt
    simpa [renumbering] using ⟨hkeys, hlt⟩

/-- Just the nodes that are not alive have no key in the copy. -/
theorem lookup_renumbering_eq_none_iff {key : NodeKey} :
    g.renumbering.lookup key = none ↔ g.hasNode key = false := by
  constructor
  · intro hnone
    by_contra halive
    obtain ⟨rank, hrank⟩ := exists_renumbering (Bool.of_not_eq_false halive)
    rw [hnone] at hrank
    exact nomatch hrank
  · intro hdead
    refine Option.eq_none_iff_forall_ne_some.2 fun rank hrank => ?_
    have halive := Registry.mem_keys_iff.1 (List.mem_of_getElem? (lookup_renumbering_iff.1 hrank))
    exact Bool.false_ne_true (hdead.symm.trans halive)

/-- **A copy is compact and well formed**, whatever the names, the indices and the references
of the graph are, as long as no hyperarc lists a member twice. The copy of a well formed graph
is described as the graph is, and is the graph if no slot of this was empty. -/
theorem copy_compacts (g : Graph) (h : g.MembersDistinct) :
    g.CopiedTo g.copy g.renumbering ∧
      (g.WellFormed → g.copy.describe = g.describe ∧ (g.Compact → g.copy = g)) := by
  constructor
  · exact {
      wellFormed := wellFormed_copy h
      renumbered := g.isRenumbering_renumbering
      lookup_eq_none_iff := fun _ => lookup_renumbering_eq_none_iff
      nodes := g.copiedBy_nodes
      arcs := g.arcs.copiedBy_ofElements fun _ => rfl
      hyperarcs := g.hyperarcs.copiedBy_ofElements fun _ => rfl
      name := rfl
      globalLabels := rfl
      globalVariables := rfl }
  · intro hwellFormed
    exact ⟨(relocated_copy hwellFormed).describe_eq.symm, fun hcompact =>
      copy_eq_self hcompact hwellFormed⟩

/-- Two nodes of one name with an empty slot between them, an arc and a hyperarc that refer to
the node that is gone, and nothing in the indices. -/
def scattered : Graph where
  nodes := ⟨[some { name := "a" }, none, some { name := "a" }], .empty⟩
  arcs := ⟨[none, some { name := "e", source := some ⟨2⟩, target := some ⟨1⟩ }], .empty⟩
  hyperarcs := ⟨[some { name := "h", members := [⟨2⟩, ⟨1⟩, ⟨0⟩] }], .empty⟩

theorem scattered_membersDistinct : scattered.MembersDistinct := by
  intro key hyperarc hkey
  have hmem : hyperarc ∈ [({ name := "h", members := [⟨2⟩, ⟨1⟩, ⟨0⟩] } : HyperArc)] :=
    Registry.mem_elements_iff.2 ⟨key, hkey⟩
  rw [List.mem_singleton.1 hmem]
  decide

/-- The second node moves up and is renamed, and what referred to the empty slot is let go. -/
theorem copy_compacts_scattered :
    scattered.MembersDistinct ∧
      scattered.CopiedTo scattered.copy [(⟨0⟩, ⟨0⟩), (⟨2⟩, ⟨1⟩)] ∧
      scattered.copy.nodes.elements.map (·.name) = ["a", "a_1"] ∧
      scattered.copy.arcs.elements.map (·.ends) = [[⟨1⟩]] ∧
      scattered.copy.hyperarcs.elements.map (·.members) = [[⟨1⟩, ⟨0⟩]] ∧
      danglingEdge.WellFormed ∧ danglingEdge.copy.describe = danglingEdge.describe :=
  ⟨scattered_membersDistinct, (copy_compacts scattered scattered_membersDistinct).1,
    by decide +kernel, by decide +kernel, by decide +kernel, danglingEdge_wellFormed,
    ((copy_compacts danglingEdge danglingEdge_wellFormed.members_distinct).2
      danglingEdge_wellFormed).1⟩

end Graph

end GraphGrammar
