import GraphGrammar.Proofs.Description
import GraphGrammar.Proofs.Naming

/-!
# The graph that a description describes

A description tells of one graph (`GraphDescription.Describes`): its elements stand in the
order of their descriptions, every reference is to the node of that name, and what is listed
twice is there once, at its first place. Names of nodes are kept, and those of arcs and of
hyperarcs are given in turn. Nothing is left open (`GraphDescription.Describes.unique`).

The relation is between a description and a graph, and no function is involved. So it can serve
as the statement of what connecting a description does, and of what describing a graph does,
without either of them being defined in terms of the other.
-/

namespace GraphGrammar

open Attributed

/-! ## What is described

Each kind has a relation of its own. References are told by the names of nodes in the graph at
hand, so the relations for arcs and hyperarcs have that graph as an argument. -/

/-- The attributes described, names apart. The labels are those described, each of them at its
first place. -/
structure ElementDescription.Describes (d : ElementDescription) (a : Attributes) : Prop where
  labels : a.labels.toList = d.labels.eraseDups
  values : a.values = d.values
  typeTag : a.typeTag = d.typeTag

/-- The node described. -/
structure NodeDescription.Describes (d : NodeDescription) (node : Node) : Prop where
  attributes : d.toElementDescription.Describes node.toAttributes
  name : node.name = d.name
  position : node.position = d.position

/-- The arc of a graph that is described, but for its name. An end dangles in the one if it does
in the other. Arrow heads at both ends make an arc directed. -/
structure ArcDescription.Describes (g : Graph) (d : ArcDescription) (arc : Arc) : Prop where
  attributes : d.toElementDescription.Describes arc.toAttributes
  source : g.nodeName? arc.source = d.source
  target : g.nodeName? arc.target = d.target
  directed : arc.directed = (d.directed || d.doublyDirected)
  doublyDirected : arc.doublyDirected = d.doublyDirected

/-- The hyperarc of a graph that is described, but for its name. A member that is described twice
is a member once. -/
structure HyperArcDescription.Describes (g : Graph) (d : HyperArcDescription)
    (hyperarc : HyperArc) :
    Prop where
  attributes : d.toElementDescription.Describes hyperarc.toAttributes
  members : hyperarc.members.map (fun key => g.nodeName? (some key)) = d.members.eraseDups.map some

/-- The keys are the numbers from zero on, and each element is described in the place of its
key. -/
structure Registry.Enumerates {κ : Kind} {α δ : Type} (r : Registry κ α) (descriptions : List δ)
    (Describes : δ → α → Prop) : Prop where
  keys : r.keys = (List.range descriptions.length).map Key.mk
  slots : r.cells.length = descriptions.length
  described : ∀ key a, r.get? key = some a → ∃ d, descriptions[key.index]? = some d ∧ Describes d a

/-- **The graph described.** References are by the names that the nodes are described under.
Those of arcs and hyperarcs are given in turn. -/
structure GraphDescription.Describes (d : GraphDescription) (g : Graph) : Prop where
  wellFormed : g.WellFormed
  name : g.name = d.name
  globalLabels : g.globalLabels.toList = d.globalLabels.eraseDups
  globalVariables : g.globalVariables = d.globalVariables
  nodes : g.nodes.Enumerates d.nodes NodeDescription.Describes
  arcs : g.arcs.Enumerates d.arcs (ArcDescription.Describes g)
  arcNames : NamesInTurn (fun key => d.arcs[key.index]?.map (·.name)) g.arcs.nameUnder
  hyperarcs : g.hyperarcs.Enumerates d.hyperarcs (HyperArcDescription.Describes g)
  hyperarcNames : NamesInTurn (fun key => d.hyperarcs[key.index]?.map (·.name))
    g.hyperarcs.nameUnder

/-- A registry with the keys from zero on has no gaps. -/
theorem Registry.Enumerates.compact {κ : Kind} {α δ : Type} {descriptions : List δ}
    {Describes : δ → α → Prop} {r : Registry κ α} (h : r.Enumerates descriptions Describes) :
    r.Compact := by
  intro cell hcell
  obtain ⟨place, hlt, rfl⟩ := List.getElem_of_mem hcell
  have hkey : (⟨place⟩ : Key κ) ∈ r.keys := by
    rw [h.keys]
    exact List.mem_map_of_mem (List.mem_range.2 (h.slots ▸ hlt))
  obtain ⟨a, ha⟩ := contains_iff.1 (mem_keys_iff.1 hkey)
  have hcell : r.cells[place]? = some (some a) := Option.join_eq_some_iff.1 ha
  rw [List.getElem?_eq_getElem hlt, Option.some_inj] at hcell
  rw [hcell]
  rfl

/-! ## One graph is described

Two graphs with one description have the same nodes, since names and attributes are described;
then the same references, since a name is that of one node; and the names of arcs and hyperarcs
are given in turn, so they are the same as well. -/

/-- Attributes are told by their description and their name. -/
theorem ElementDescription.Describes.eq {d : ElementDescription} {a b : Attributes}
    (ha : d.Describes a) (hb : d.Describes b) (hname : a.name = b.name) : a = b := by
  obtain ⟨name, ⟨labels⟩, values, typeTag⟩ := a
  obtain ⟨name', ⟨labels'⟩, values', typeTag'⟩ := b
  obtain ⟨rfl, rfl, rfl⟩ := ha
  obtain ⟨rfl, rfl, rfl⟩ := hb
  cases hname
  rfl

/-- A description of a node is of one node. -/
theorem NodeDescription.Describes.eq {d : NodeDescription} {node other : Node}
    (h : d.Describes node) (h' : d.Describes other) : node = other := by
  have hattributes := h.attributes.eq h'.attributes (h.name.trans h'.name.symm)
  have hposition := h.position.trans h'.position.symm
  cases node
  cases other
  cases hattributes
  cases hposition
  rfl

section

variable {g : Graph} (hindexed : Graph.Indexed g.nodes)

include hindexed

/-- Live nodes are told apart by their names. -/
theorem Graph.nodeName?_inj {e e' : Option NodeKey}
    (he : ∀ node, e = some node → g.hasNode node = true)
    (he' : ∀ node, e' = some node → g.hasNode node = true)
    (hname : g.nodeName? e = g.nodeName? e') : e = e' := by
  rw [← find?_nodeName_end hindexed he, ← find?_nodeName_end hindexed he', hname]

/-- In a graph, a description of an arc is of one arc, up to its name. -/
theorem ArcDescription.Describes.eq {d : ArcDescription} {arc other : Arc}
    (h : d.Describes g arc) (h' : d.Describes g other)
    (halive : ∀ node ∈ arc.ends, g.hasNode node = true)
    (halive' : ∀ node ∈ other.ends, g.hasNode node = true) (hname : arc.name = other.name) :
    arc = other := by
  have hattributes := h.attributes.eq h'.attributes hname
  have hsource := Graph.nodeName?_inj hindexed
    (fun node hnode => halive node (Arc.mem_ends.2 (.inl hnode)))
    (fun node hnode => halive' node (Arc.mem_ends.2 (.inl hnode))) (h.source.trans h'.source.symm)
  have htarget := Graph.nodeName?_inj hindexed
    (fun node hnode => halive node (Arc.mem_ends.2 (.inr hnode)))
    (fun node hnode => halive' node (Arc.mem_ends.2 (.inr hnode))) (h.target.trans h'.target.symm)
  have hdirected := h.directed.trans h'.directed.symm
  have hdoubly := h.doublyDirected.trans h'.doublyDirected.symm
  cases arc
  cases other
  cases hattributes
  cases hsource
  cases htarget
  cases hdirected
  cases hdoubly
  rfl

/-- In a graph, a description of a hyperarc is of one hyperarc, up to its name. -/
theorem HyperArcDescription.Describes.eq {d : HyperArcDescription} {hyperarc other : HyperArc}
    (h : d.Describes g hyperarc) (h' : d.Describes g other)
    (halive : ∀ node ∈ hyperarc.members, g.hasNode node = true)
    (halive' : ∀ node ∈ other.members, g.hasNode node = true) (hname : hyperarc.name = other.name) :
    hyperarc = other := by
  have hfind : ∀ members : List NodeKey, (∀ node ∈ members, g.hasNode node = true) →
      (members.map fun key => g.nodeName? (some key)).map (·.bind g.nodes.find?)
        = members.map some := by
    intro members hmembers
    rw [List.map_map]
    exact List.map_congr_left fun node hnode => Graph.find?_nodeName hindexed (hmembers node hnode)
  have hattributes := h.attributes.eq h'.attributes hname
  have hmembers : hyperarc.members = other.members := by
    refine (List.map_inj_right fun _ _ => Option.some.inj).1 ?_
    rw [← hfind _ halive, ← hfind _ halive', h.members, h'.members]
  cases hyperarc
  cases other
  cases hattributes
  cases hmembers
  rfl

end

/-- Registries that enumerate the same are the same if each description is of one element. -/
theorem Registry.Enumerates.eq {κ : Kind} {α δ : Type} [Attributed α] {descriptions : List δ}
    {Describes Describes' : δ → α → Prop} {r s : Registry κ α}
    (hr : r.Enumerates descriptions Describes) (hs : s.Enumerates descriptions Describes')
    (hindexed : Graph.Indexed r) (hindexed' : Graph.Indexed s)
    (heq : ∀ key d a b, r.get? key = some a → s.get? key = some b → Describes d a →
      Describes' d b → a = b) : r = s := by
  have hcell : ∀ (r : Registry κ α) (place : Nat) (hlt : place < r.cells.length),
      r.cells[place] = r.get? ⟨place⟩ := by
    intro r place hlt
    rw [get?, List.getElem?_eq_getElem hlt]
    rfl
  refine eq_of_cells_eq hindexed hindexed'
    (List.ext_getElem (hr.slots.trans hs.slots.symm) fun place hlt hlt' => ?_)
  obtain ⟨a, ha⟩ := hr.compact.exists_get? (show (⟨place⟩ : Key κ).index < _ from hlt)
  obtain ⟨b, hb⟩ := hs.compact.exists_get? (show (⟨place⟩ : Key κ).index < _ from hlt')
  obtain ⟨d, hd, hda⟩ := hr.described _ a ha
  obtain ⟨d', hd', hdb⟩ := hs.described _ b hb
  rw [hd, Option.some_inj] at hd'
  rw [hcell, hcell, ha, hb, heq _ d a b ha hb hda (hd' ▸ hdb)]

namespace GraphDescription

variable {d : GraphDescription} {g g' : Graph}

/-- **A description describes one graph.** The parts are compared in the order in which they
depend on each other: first the nodes, which the descriptions determine with their names; then
the names of arcs and hyperarcs, given in turn; and then what these refer to, which is told by
names of nodes. -/
theorem Describes.unique (h : d.Describes g) (h' : d.Describes g') : g = g' := by
  -- nodes come first, as references are compared by the names of nodes
  have hnodes : g.nodes = g'.nodes := h.nodes.eq h'.nodes h.wellFormed.nodes_indexed
    h'.wellFormed.nodes_indexed fun _ _ _ _ _ _ ha hb => ha.eq hb
  have hname : ∀ {κ : Kind} {α : Type} [Attributed α] {r s : Registry κ α} {key : Key κ} {a b : α},
      r.nameUnder = s.nameUnder → r.get? key = some a → s.get? key = some b →
        nameOf a = nameOf b := by
    intro κ α _ r s key a b hnames ha hb
    have hkey := congrFun hnames key
    rw [Registry.nameUnder, Registry.nameUnder, ha, hb] at hkey
    exact Option.some.inj hkey
  have hnode : g.hasNode = g'.hasNode := by
    unfold Graph.hasNode
    rw [hnodes]
  have hnodeName : g.nodeName? = g'.nodeName? := by
    unfold Graph.nodeName? Graph.node?
    rw [hnodes]
  have harcs : g.arcs = g'.arcs := by
    refine h.arcs.eq h'.arcs h.wellFormed.arcs_indexed h'.wellFormed.arcs_indexed
      fun key x a b ha hb hxa hxb => ?_
    have hxb : x.Describes g b := ⟨hxb.attributes, hnodeName ▸ hxb.source, hnodeName ▸ hxb.target,
      hxb.directed, hxb.doublyDirected⟩
    exact ArcDescription.Describes.eq h.wellFormed.nodes_indexed hxa hxb
      (h.wellFormed.ends_alive key a ha) (hnode ▸ h'.wellFormed.ends_alive key b hb)
      (hname (h.arcNames.unique h'.arcNames) ha hb)
  have hhyperarcs : g.hyperarcs = g'.hyperarcs := by
    refine h.hyperarcs.eq h'.hyperarcs h.wellFormed.hyperarcs_indexed
      h'.wellFormed.hyperarcs_indexed
      fun key x a b ha hb hxa hxb => ?_
    have hxb : x.Describes g b := ⟨hxb.attributes, hnodeName ▸ hxb.members⟩
    exact HyperArcDescription.Describes.eq h.wellFormed.nodes_indexed hxa hxb
      (h.wellFormed.members_alive key a ha) (hnode ▸ h'.wellFormed.members_alive key b hb)
      (hname (h.hyperarcNames.unique h'.hyperarcNames) ha hb)
  have hlabels : g.globalLabels = g'.globalLabels :=
    congrArg LabelSet.mk (h.globalLabels.trans h'.globalLabels.symm)
  have hvariables := h.globalVariables.trans h'.globalVariables.symm
  have hgraph := h.name.trans h'.name.symm
  -- all fields agree
  cases g
  cases g'
  cases hnodes
  cases harcs
  cases hhyperarcs
  cases hlabels
  cases hvariables
  cases hgraph
  rfl

end GraphDescription

end GraphGrammar
