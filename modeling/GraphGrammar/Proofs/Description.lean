import GraphGrammar.Graph.Description
import GraphGrammar.Proofs.Confluence
import GraphGrammar.Proofs.Equivalence

/-!
# Descriptions and the graphs they lead to

Connecting succeeds as soon as no two nodes are described under one name and every name
referred to is that of a node (`GraphDescription.connect_eq_ok`). What it then leads to is
said without a trace of the steps: each element is made of its own description, with the
names in it looked up among the nodes (`GraphDescription.connected`).

A well formed graph can therefore be described and connected again. Nothing is lost but
what a description does not tell apart: a label that is listed twice is listed once
afterwards, and an arc with arrow heads at both ends is directed afterwards, whatever its
other flag said (`Graph.tidied`). Otherwise the result is the copy of the graph
(`Graph.connect_describe`).

The graph is defined first (`GraphDescription.connected`), by looking up every name in the
registry of all nodes. That connecting builds this graph, although it adds one element after
another, is because nodes come before anything that refers to them.
-/

namespace GraphGrammar

open Attributed

/-! ## What a description leads to

Looking a name up gives a key or nothing. In the definitions here a reference that cannot be
looked up is left out; whether there is one is a question of its own, which decides whether
connecting is refused. -/

/-- The arc described, its ends looked up by name. -/
def ArcDescription.toArc (d : ArcDescription) (find : Name → Option NodeKey) : Arc :=
  { d.attributes with
    source := d.source.bind find
    target := d.target.bind find
    directed := d.directed || d.doublyDirected
    doublyDirected := d.doublyDirected }

/-- The hyperarc described, its members looked up by name. -/
def HyperArcDescription.toHyperArc (d : HyperArcDescription) (find : Name → Option NodeKey) :
    HyperArc :=
  { d.attributes with members := distinctMembers (d.members.filterMap find) }

/-- The names of the ends that do not dangle. -/
def ArcDescription.references (d : ArcDescription) : List Name :=
  [d.source, d.target].filterMap id

/-- The source comes first. -/
theorem ArcDescription.findSome?_references {β : Type} (d : ArcDescription) (p : Name → Option β) :
    d.references.findSome? p = (d.source.bind p).or (d.target.bind p) := by
  have hpair : ∀ e e' : Option Name,
      ([e, e'].filterMap id).findSome? p = (e.bind p).or (e'.bind p) := by
    intro e e'
    cases e with
    | none => cases e' with
      | none => rfl
      | some target => simp [List.findSome?_cons]; cases p target <;> rfl
    | some source => cases e' with
      | none => simp [List.findSome?_cons]; cases p source <;> rfl
      | some target => simp [List.findSome?_cons]; cases p source <;> cases p target <;> rfl
  exact hpair d.source d.target

namespace GraphDescription

/-- The names by which arcs and hyperarcs refer to nodes. -/
def references (d : GraphDescription) : List Name :=
  d.arcs.flatMap (·.references) ++ d.hyperarcs.flatMap (·.members)

/-- The nodes described. -/
def nodeRegistry (d : GraphDescription) : Registry .node Node :=
  .ofElements (d.nodes.map (·.toNode))

/-- The registry of nodes has its index in order, as it is built by adding one node after
another. -/
theorem indexed_nodeRegistry (d : GraphDescription) : Graph.Indexed d.nodeRegistry :=
  (Registry.compact_indexed_ofElements _).2.1

/-- A node has the name it is described under. -/
theorem names_toNode (d : GraphDescription) :
    (d.nodes.map (·.toNode)).map nameOf = d.nodes.map (·.name) := by
  rw [List.map_map]
  rfl

/-- The graph that a description leads to if all its names can be looked up. -/
def connected (d : GraphDescription) : Graph where
  name := d.name
  nodes := d.nodeRegistry
  arcs := .ofElements (d.arcs.map (·.toArc d.nodeRegistry.find?))
  hyperarcs := .ofElements (d.hyperarcs.map (·.toHyperArc d.nodeRegistry.find?))
  globalLabels := .ofList d.globalLabels
  globalVariables := d.globalVariables

end GraphDescription

/-! ## Connecting -/

namespace Graph

variable {g : Graph}

/-! ### One element at a time

The steps are given as equations: what a step returns, whether it is refused or not. With an
equation for each the loops below need no case distinction of their own. -/

/-- A node whose name is free is added. -/
theorem addNode_eq_ok {node : Node} (hfree : g.nodes.names.contains node.name = false) :
    (g.addNode node).map Prod.snd = .ok { g with nodes := (g.nodes.pushUnique node).2 } := by
  rw [Registry.pushUnique_of_free (a := node) hfree, addNode, if_neg (Bool.eq_false_iff.1 hfree)]
  rfl

/-- Why a name is refused that no node bears. -/
def unresolved? (nodes : Registry .node Node) (name : Name) : Option (Report GraphError) :=
  if nodes.names.contains name then none else some (.of (.unresolvedNodeName name))

/-- A name is looked up, or the failure names it. -/
theorem resolve_eq (name : Name) :
    g.resolve name = (g.nodes.find? name).elim (.fail (.unresolvedNodeName name)) .ok := by
  unfold resolve
  cases g.nodes.find? name <;> rfl

/-- A name that is found is not refused. -/
theorem unresolved?_of_find? {nodes : Registry .node Node} {name : Name} {key : NodeKey}
    (h : nodes.find? name = some key) : unresolved? nodes name = none :=
  if_pos (NameMap.contains_iff.2 ⟨key, h⟩)

/-- A name that is not found is refused, and the failure names it. -/
theorem unresolved?_of_find?_eq_none {nodes : Registry .node Node} {name : Name}
    (h : nodes.find? name = none) :
    unresolved? nodes name = some (.of (.unresolvedNodeName name)) :=
  if_neg (Bool.eq_false_iff.1 (NameMap.contains_eq_false_iff.2 h))

/-- An end is looked up if it is attached, and a dangling one stays so. -/
theorem resolveEnd_eq (reference : Option Name) :
    g.resolveEnd reference = (reference.bind (unresolved? g.nodes)).elim
      (.ok (reference.bind g.nodes.find?)) .error := by
  cases reference with
  | none => rfl
  | some name =>
    rw [resolveEnd, resolve_eq, Option.bind_some, Option.bind_some]
    cases hfind : g.nodes.find? name with
    | none =>
      rw [unresolved?_of_find?_eq_none hfind]
      rfl
    | some key =>
      rw [unresolved?_of_find? hfind]
      rfl

/-- Names are resolved one by one, and the first that cannot be is refused. -/
theorem mapM_resolve_eq : ∀ names : List Name,
    names.mapM g.resolve = (names.findSome? (unresolved? g.nodes)).elim
      (.ok (names.filterMap g.nodes.find?)) .error
  | [] => rfl
  | name :: rest => by
    rw [List.mapM_cons, resolve_eq, mapM_resolve_eq rest, List.findSome?_cons, List.filterMap_cons]
    cases hfind : g.nodes.find? name with
    | none =>
      rw [unresolved?_of_find?_eq_none hfind]
      rfl
    | some key =>
      rw [unresolved?_of_find? hfind]
      cases rest.findSome? (unresolved? g.nodes) <;> rfl

/-- A name is looked up among live nodes. -/
theorem hasNode_of_find? (hindexed : Indexed g.nodes) {name : Name} {key : NodeKey}
    (h : g.nodes.find? name = some key) : g.hasNode key = true := by
  obtain ⟨node, hnode, -⟩ := hindexed.exists_of_find? h
  exact hasNode_iff.2 ⟨node, hnode⟩

/-- An arc that was described has its ends at nodes of the graph. -/
theorem ends_alive_of_toArc (hindexed : Indexed g.nodes) (d : ArcDescription) :
    ∀ node ∈ (d.toArc g.nodes.find?).ends, g.hasNode node = true := by
  intro node hnode
  rcases Arc.mem_ends.1 hnode with hend | hend
  · obtain ⟨name, -, hfind⟩ := Option.bind_eq_some_iff.1 hend
    exact hasNode_of_find? hindexed hfind
  · obtain ⟨name, -, hfind⟩ := Option.bind_eq_some_iff.1 hend
    exact hasNode_of_find? hindexed hfind

/-- A hyperarc that was described has nodes of the graph as members. -/
theorem members_alive_of_toHyperArc (hindexed : Indexed g.nodes) (d : HyperArcDescription) :
    ∀ node ∈ (d.toHyperArc g.nodes.find?).members, g.hasNode node = true := by
  intro node hnode
  obtain ⟨name, -, hfind⟩ := List.mem_filterMap.1 (mem_distinctMembers.1 hnode)
  exact hasNode_of_find? hindexed hfind

/-- **An arc is added as it is described, or refused for the first of its ends that is at no
node.** -/
theorem connectArc_eq (hindexed : Indexed g.nodes) (d : ArcDescription) :
    g.connectArc d = (d.references.findSome? (unresolved? g.nodes)).elim
      (.ok { g with arcs := (g.arcs.pushUnique (d.toArc g.nodes.find?)).2 }) .error := by
  unfold connectArc
  rw [resolveEnd_eq, resolveEnd_eq, d.findSome?_references]
  cases d.source.bind (unresolved? g.nodes) with
  | some failure => rfl
  | none =>
    cases d.target.bind (unresolved? g.nodes) with
    | some failure => rfl
    | none => exact bind_of_eq_ok (addArcUnique_eq_ok (ends_alive_of_toArc hindexed d)) _

/-- **A hyperarc is added as it is described, or refused for the first of its members that is
no node.** -/
theorem connectHyperArc_eq (hindexed : Indexed g.nodes) (d : HyperArcDescription) :
    g.connectHyperArc d = (d.members.findSome? (unresolved? g.nodes)).elim
      (.ok { g with hyperarcs := (g.hyperarcs.pushUnique (d.toHyperArc g.nodes.find?)).2 })
      .error := by
  unfold connectHyperArc
  rw [mapM_resolve_eq]
  cases d.members.findSome? (unresolved? g.nodes) with
  | some failure => rfl
  | none =>
    exact bind_of_eq_ok (addHyperArcUnique_eq_ok (members_alive_of_toHyperArc hindexed d)) _

/-! ### One after the other

The first name that cannot be looked up is the first in the list of all references, taken in the
order of the arcs and of their ends. So the loops are equations of the same form as the steps. -/

/-- What is refused first in a list of lists. -/
theorem findSome?_flatMap {α β γ : Type} (refs : α → List β) (p : β → Option γ) :
    ∀ xs : List α, (xs.flatMap refs).findSome? p = xs.findSome? fun x => (refs x).findSome? p
  | [] => rfl
  | x :: rest => by
    rw [List.flatMap_cons, List.findSome?_append, findSome?_flatMap refs p rest,
      List.findSome?_cons]
    cases (refs x).findSome? p <;> rfl

/-- **Arcs are added as they are described, or refused for the first name that is at no node.**
-/
theorem foldlM_connectArc (hindexed : Indexed g.nodes) (arcs : List ArcDescription) :
    arcs.foldlM connectArc g = ((arcs.flatMap (·.references)).findSome? (unresolved? g.nodes)).elim
      (.ok { g with
        arcs := (arcs.map (·.toArc g.nodes.find?)).foldl (fun r a => (r.pushUnique a).2) g.arcs })
      .error := by
  rw [findSome?_flatMap, ← foldl_pushArc, List.foldl_map]
  exact foldlM_eq_elim (P := fun b : Graph => b.nodes = g.nodes) _ arcs
    (fun b x _ hb => ⟨hb ▸ connectArc_eq (hb ▸ hindexed) x, hb⟩) rfl

/-- The same for hyperarcs. -/
theorem foldlM_connectHyperArc (hindexed : Indexed g.nodes) (hyperarcs : List HyperArcDescription) :
    hyperarcs.foldlM connectHyperArc g
      = ((hyperarcs.flatMap (·.members)).findSome? (unresolved? g.nodes)).elim
        (.ok { g with
          hyperarcs := (hyperarcs.map (·.toHyperArc g.nodes.find?)).foldl
            (fun r a => (r.pushUnique a).2) g.hyperarcs })
        .error := by
  rw [findSome?_flatMap, ← foldl_pushHyperArc, List.foldl_map]
  exact foldlM_eq_elim (P := fun b : Graph => b.nodes = g.nodes) _ hyperarcs
    (fun b x _ hb => ⟨hb ▸ connectHyperArc_eq (hb ▸ hindexed) x, hb⟩) rfl

end Graph

/-! ### The whole description -/

namespace GraphDescription

variable {d : GraphDescription}

/-- Nodes with distinct names that are free are added one after another. -/
theorem foldlM_addNode :
    ∀ (nodes : List NodeDescription) (g : Graph), (nodes.map (·.name)).Nodup →
      (∀ node ∈ nodes, g.nodes.names.contains node.name = false) →
      nodes.foldlM (fun g node => (g.addNode node.toNode).map Prod.snd) g
        = .ok { g with
          nodes := (nodes.map (·.toNode)).foldl (fun r a => (r.pushUnique a).2) g.nodes }
  | [], _, _, _ => rfl
  | node :: rest, g, hnodup, hfree => by
    rw [List.map_cons, List.nodup_cons] at hnodup
    have hnode : g.nodes.names.contains node.toNode.name = false :=
      hfree node List.mem_cons_self
    rw [List.foldlM_cons, Graph.addNode_eq_ok hnode]
    refine foldlM_addNode rest _ hnodup.2 fun other hother => ?_
    -- the names after the first one are other names
    have hne : other.name ≠ node.name := fun heq =>
      hnodup.1 (heq ▸ List.mem_map_of_mem hother)
    dsimp only
    rw [Registry.pushUnique_of_free (a := node.toNode) hnode]
    refine NameMap.contains_eq_false_iff.2 ((NameMap.find?_insert ..).trans ?_)
    rw [if_neg (show other.name ≠ nameOf node.toNode from hne)]
    exact NameMap.contains_eq_false_iff.1 (hfree other (List.mem_cons_of_mem _ hother))

/-- **With distinct names of nodes, a description is connected or refused for the first name
that refers to no node.** -/
theorem connect_eq (hnodup : (d.nodes.map (·.name)).Nodup) :
    d.connect = (d.references.findSome? (Graph.unresolved? d.nodeRegistry)).elim (.ok d.connected)
      .error := by
  let withNodes : Graph := {
    name := d.name
    nodes := d.nodeRegistry
    globalLabels := .ofList d.globalLabels
    globalVariables := d.globalVariables }
  have hnodes := foldlM_addNode d.nodes { withNodes with nodes := .empty } hnodup fun _ _ => rfl
  have harcs := Graph.foldlM_connectArc (g := withNodes) d.indexed_nodeRegistry d.arcs
  unfold connect references
  rw [bind_of_eq_ok hnodes, List.findSome?_append]
  refine (congrArg (· >>= _) harcs).trans ?_
  show ((d.arcs.flatMap (·.references)).findSome? (Graph.unresolved? d.nodeRegistry)).elim _ _
    >>= _ = _
  cases (d.arcs.flatMap (·.references)).findSome? (Graph.unresolved? d.nodeRegistry) with
  | some failure => rfl
  | none => exact Graph.foldlM_connectHyperArc d.indexed_nodeRegistry d.hyperarcs

/-- The names that can be looked up are those of the nodes described. -/
theorem contains_nodeRegistry_iff (hnodup : (d.nodes.map (·.name)).Nodup) {name : Name} :
    d.nodeRegistry.names.contains name = true ↔ name ∈ d.nodes.map (·.name) := by
  have hnames := d.names_toNode
  rw [d.indexed_nodeRegistry.contains_iff, nodeRegistry,
    Registry.elements_ofElements (hnames ▸ hnodup), ← hnames, List.mem_map]

/-- The names that are not refused are those of the nodes described. -/
theorem unresolved?_eq_none_iff (hnodup : (d.nodes.map (·.name)).Nodup) {name : Name} :
    Graph.unresolved? d.nodeRegistry name = none ↔ name ∈ d.nodes.map (·.name) := by
  rw [← contains_nodeRegistry_iff hnodup, Graph.unresolved?]
  cases d.nodeRegistry.names.contains name <;> simp

/-- **A description whose names can be looked up is connected**: the names of the nodes are
distinct, and no other name is referred to. -/
theorem connect_eq_ok (hnodup : (d.nodes.map (·.name)).Nodup)
    (hreferences : ∀ name ∈ d.references, name ∈ d.nodes.map (·.name)) :
    d.connect = .ok d.connected := by
  rw [connect_eq hnodup, List.findSome?_eq_none_iff.2 fun name hname =>
    (unresolved?_eq_none_iff hnodup).2 (hreferences name hname)]
  rfl

end GraphDescription

/-! ## What a description does not tell apart

A description lists labels and builds a set of them, and it tells the direction of an arc in a
way in which an arc with arrow heads at both ends is directed. `Graph.tidied` makes a graph one
in which these differences are gone, and `tidied_eq_self_iff` says of which graphs there were
none. -/

/-- The attributes with no label listed twice. -/
def Attributes.tidied (a : Attributes) : Attributes := { a with labels := .ofList a.labels.toList }

/-- The node with no label listed twice. -/
def Node.tidied (node : Node) : Node := { node with toAttributes := node.toAttributes.tidied }

/-- The arc with no label listed twice, and directed if it has arrow heads at both ends. -/
def Arc.tidied (arc : Arc) : Arc :=
  { arc with
    toAttributes := arc.toAttributes.tidied
    directed := arc.directed || arc.doublyDirected }

/-- The hyperarc with no label listed twice. -/
def HyperArc.tidied (hyperarc : HyperArc) : HyperArc :=
  { hyperarc with toAttributes := hyperarc.toAttributes.tidied }

/-- The graph with no label listed twice and no arc that has arrow heads at both ends
without being directed. -/
def Graph.tidied (g : Graph) : Graph :=
  { g with
    nodes := g.nodes.mapElements Node.tidied
    arcs := g.arcs.mapElements Arc.tidied
    hyperarcs := g.hyperarcs.mapElements HyperArc.tidied
    globalLabels := .ofList g.globalLabels.toList }

/-- A set made of its own labels is the same set if and only if it lists none twice. -/
theorem LabelSet.ofList_eq_self_iff {s : LabelSet} : ofList s.toList = s ↔ s.Distinct :=
  ⟨fun h => h ▸ distinct_ofList s.toList, ofList_eq_self⟩

/-- Attributes are tidy if no label is listed twice. -/
theorem Attributes.tidied_eq_self_iff {a : Attributes} :
    a.tidied = a ↔ a.labels.Distinct := by
  rw [← LabelSet.ofList_eq_self_iff]
  constructor
  · intro h
    exact congrArg Attributes.labels h
  · intro h
    rw [Attributes.tidied, h]

/-- An arc is tidy if its attributes are, and if it is directed whenever it has arrow heads at
both ends. -/
theorem Arc.tidied_eq_self_iff {arc : Arc} :
    arc.tidied = arc ↔
      arc.labels.Distinct ∧ (arc.doublyDirected = true → arc.directed = true) := by
  rw [← Attributes.tidied_eq_self_iff (a := arc.toAttributes)]
  have hflag : (arc.directed || arc.doublyDirected) = arc.directed ↔
      (arc.doublyDirected = true → arc.directed = true) := by
    cases arc.directed <;> cases arc.doublyDirected <;> decide
  rw [← hflag]
  constructor
  · intro h
    exact ⟨congrArg Arc.toAttributes h, congrArg Arc.directed h⟩
  · rintro ⟨hattributes, hdirected⟩
    rw [Arc.tidied, hattributes, hdirected]

/-- A node is tidy if its attributes are. -/
theorem Node.tidied_eq_self_iff {node : Node} :
    node.tidied = node ↔ node.labels.Distinct := by
  rw [← Attributes.tidied_eq_self_iff (a := node.toAttributes)]
  constructor
  · intro h
    exact congrArg Node.toAttributes h
  · intro h
    rw [Node.tidied, h]

/-- A hyperarc is tidy if its attributes are. -/
theorem HyperArc.tidied_eq_self_iff {hyperarc : HyperArc} :
    hyperarc.tidied = hyperarc ↔ hyperarc.labels.Distinct := by
  rw [← Attributes.tidied_eq_self_iff (a := hyperarc.toAttributes)]
  constructor
  · intro h
    exact congrArg HyperArc.toAttributes h
  · intro h
    rw [HyperArc.tidied, h]

/-- Changing the elements changes nothing if it changes none of them. -/
theorem Registry.mapElements_eq_self_iff {κ : Kind} {α : Type} {r : Registry κ α} {f : α → α} :
    r.mapElements f = r ↔ ∀ a ∈ r.elements, f a = a := by
  constructor
  · intro h a ha
    obtain ⟨key, hkey⟩ := mem_elements_iff.1 ha
    have hmapped := r.get?_mapElements f key
    rw [h, hkey] at hmapped
    exact (Option.some.inj hmapped).symm
  · intro h
    have hcells : r.cells.map (·.map f) = r.cells := by
      rw [List.map_congr_left (g := id) fun cell hcell => ?_, List.map_id]
      cases cell with
      | none => rfl
      | some a =>
        obtain ⟨place, hlt, hplace⟩ := List.getElem_of_mem hcell
        refine congrArg some (h a (mem_elements_iff.2 ⟨⟨place⟩, ?_⟩))
        rw [get?, List.getElem?_eq_getElem hlt, hplace]
        rfl
    rw [mapElements, hcells]

namespace Graph

variable {g : Graph}

/-- A graph is tidy if no label is listed twice and every arc with arrow heads at both ends
is directed. -/
theorem tidied_eq_self_iff :
    g.tidied = g ↔
      g.LabelsDistinct ∧ ∀ arc ∈ g.arcs.elements,
        arc.doublyDirected = true → arc.directed = true := by
  -- tidying works on each part separately
  have hparts : g.tidied = g ↔
      g.nodes.mapElements Node.tidied = g.nodes ∧ g.arcs.mapElements Arc.tidied = g.arcs ∧
        g.hyperarcs.mapElements HyperArc.tidied = g.hyperarcs ∧
        LabelSet.ofList g.globalLabels.toList = g.globalLabels := by
    constructor
    · intro h
      exact ⟨congrArg nodes h, congrArg arcs h, congrArg hyperarcs h, congrArg globalLabels h⟩
    · rintro ⟨hnodes, harcs, hhyperarcs, hglobals⟩
      rw [tidied, hnodes, harcs, hhyperarcs, hglobals]
  simp only [hparts, Registry.mapElements_eq_self_iff, LabelSet.ofList_eq_self_iff,
    Node.tidied_eq_self_iff, Arc.tidied_eq_self_iff, HyperArc.tidied_eq_self_iff]
  constructor
  · rintro ⟨hnodes, harcs, hhyperarcs, hglobals⟩
    refine ⟨⟨fun x hx => ?_, hglobals⟩, fun arc harc => (harcs arc harc).2⟩
    rcases List.mem_append.1 hx with hx | hx
    · rcases List.mem_append.1 hx with hx | hx
      · obtain ⟨node, hnode, rfl⟩ := List.mem_map.1 hx
        exact hnodes node hnode
      · obtain ⟨arc, harc, rfl⟩ := List.mem_map.1 hx
        exact (harcs arc harc).1
    · obtain ⟨hyperarc, hhyperarc, rfl⟩ := List.mem_map.1 hx
      exact hhyperarcs hyperarc hhyperarc
  · rintro ⟨hlabels, hdirected⟩
    refine ⟨fun node hnode => hlabels.elements _ ?_,
      fun arc harc => ⟨hlabels.elements _ ?_, hdirected arc harc⟩,
      fun hyperarc hhyperarc => hlabels.elements _ ?_, hlabels.globals⟩
    · exact List.mem_append_left _ (List.mem_append_left _ (List.mem_map_of_mem hnode))
    · exact List.mem_append_left _ (List.mem_append_right _ (List.mem_map_of_mem harc))
    · exact List.mem_append_right _ (List.mem_map_of_mem hhyperarc)

/-! ## There and back

Of a graph with indices in order, each live node is found under its name. So the references in
its description can be looked up, and lead to where they came from. -/

/-- A live node is found under its name. -/
theorem find?_nodeName (h : Indexed g.nodes) {key : NodeKey} (hkey : g.hasNode key = true) :
    (g.nodeName? (some key)).bind g.nodes.find? = some key := by
  obtain ⟨node, hnode⟩ := hasNode_iff.1 hkey
  have hname : g.nodeName? (some key) = some (nameOf node) :=
    congrArg (Option.map fun node : Node => node.name) hnode
  rw [hname]
  exact h.find?_eq_some hnode

/-- So is an end, unless it dangles. -/
theorem find?_nodeName_end (h : Indexed g.nodes) {e : Option NodeKey}
    (he : ∀ node, e = some node → g.hasNode node = true) :
    (g.nodeName? e).bind g.nodes.find? = e := by
  cases e with
  | none => rfl
  | some node => exact find?_nodeName h (he node rfl)

/-- An arc that is described by name is found again, tidied. -/
theorem toArc_describeArc (h : Indexed g.nodes) {arc : Arc}
    (halive : ∀ node ∈ arc.ends, g.hasNode node = true) :
    (g.describeArc arc).toArc g.nodes.find? = arc.tidied := by
  have hsource := find?_nodeName_end h fun node hnode => halive node (Arc.mem_ends.2 (.inl hnode))
  have htarget := find?_nodeName_end h fun node hnode => halive node (Arc.mem_ends.2 (.inr hnode))
  unfold ArcDescription.toArc describeArc
  dsimp only
  rw [hsource, htarget]
  rfl

/-- So is a hyperarc. -/
theorem toHyperArc_describeHyperArc (h : Indexed g.nodes) {hyperarc : HyperArc}
    (halive : ∀ node ∈ hyperarc.members, g.hasNode node = true)
    (hdistinct : hyperarc.members.Nodup) :
    (g.describeHyperArc hyperarc).toHyperArc g.nodes.find? = hyperarc.tidied := by
  have hmembers : (hyperarc.members.filterMap fun key => g.nodeName? (some key)).filterMap
      g.nodes.find? = hyperarc.members := by
    rw [List.filterMap_filterMap, List.filterMap_congr fun key hkey => find?_nodeName h
      (halive key hkey), List.filterMap_some]
  unfold HyperArcDescription.toHyperArc describeHyperArc
  dsimp only
  rw [hmembers, distinctMembers_eq_self hdistinct]
  rfl

/-- The names that a description refers to are those of nodes. -/
theorem references_describe : ∀ name ∈ g.describe.references,
    name ∈ g.describe.nodes.map (·.name) := by
  have hnamed : ∀ {e : Option NodeKey} {name : Name}, g.nodeName? e = some name →
      name ∈ g.describe.nodes.map (·.name) := by
    intro e name h
    obtain ⟨node, hnode, rfl⟩ := Option.map_eq_some_iff.1 h
    obtain ⟨key, -, hkey⟩ := Option.bind_eq_some_iff.1 hnode
    exact List.mem_map_of_mem (List.mem_map_of_mem (Registry.mem_elements_iff.2 ⟨key, hkey⟩))
  intro name hname
  rcases List.mem_append.1 hname with hname | hname
  · obtain ⟨d, hd, hname⟩ := List.mem_flatMap.1 hname
    obtain ⟨arc, -, rfl⟩ := List.mem_map.1 hd
    obtain ⟨reference, hreference, heq⟩ := List.mem_filterMap.1 hname
    rcases List.mem_pair.1 hreference with hsame | hsame
    · exact hnamed (e := arc.source) (hsame.symm.trans heq)
    · exact hnamed (e := arc.target) (hsame.symm.trans heq)
  · obtain ⟨d, hd, hname⟩ := List.mem_flatMap.1 hname
    obtain ⟨hyperarc, -, rfl⟩ := List.mem_map.1 hd
    obtain ⟨key, -, heq⟩ := List.mem_filterMap.1 hname
    exact hnamed heq

/-- The description of a compact graph leads to the graph, tidied. In a compact graph the places
in the lists are the keys, so nodes come back under the keys they had and references are looked
up to themselves. -/
theorem connected_describe (hcompact : g.Compact) (h : g.WellFormed) :
    g.describe.connected = g.tidied := by
  have hnodes : g.describe.nodeRegistry = g.nodes.mapElements Node.tidied := by
    refine Eq.trans ?_ (Registry.ofElements_map_elements hcompact.nodes h.nodes_indexed
      (f := Node.tidied) fun _ => rfl)
    show Registry.ofElements ((g.nodes.elements.map describeNode).map _) = _
    rw [List.map_map]
    rfl
  -- nodes keep names and places, so every reference is looked up as in the graph
  have hfind : g.describe.nodeRegistry.find? = g.nodes.find? := by
    rw [hnodes]
    rfl
  have harcs : g.describe.arcs.map (·.toArc g.describe.nodeRegistry.find?)
      = g.arcs.elements.map Arc.tidied := by
    rw [hfind]
    show (g.arcs.elements.map g.describeArc).map _ = _
    rw [List.map_map]
    refine List.map_congr_left fun arc harc => ?_
    obtain ⟨key, hkey⟩ := Registry.mem_elements_iff.1 harc
    exact toArc_describeArc h.nodes_indexed (h.ends_alive key arc hkey)
  have hhyperarcs : g.describe.hyperarcs.map (·.toHyperArc g.describe.nodeRegistry.find?)
      = g.hyperarcs.elements.map HyperArc.tidied := by
    rw [hfind]
    show (g.hyperarcs.elements.map g.describeHyperArc).map _ = _
    rw [List.map_map]
    refine List.map_congr_left fun hyperarc hh => ?_
    obtain ⟨key, hkey⟩ := Registry.mem_elements_iff.1 hh
    exact toHyperArc_describeHyperArc h.nodes_indexed (h.members_alive key hyperarc hkey)
      (h.members_distinct key hyperarc hkey)
  unfold GraphDescription.connected
  rw [harcs, hhyperarcs, hnodes, Registry.ofElements_map_elements hcompact.arcs h.arcs_indexed
    (f := Arc.tidied) fun _ => rfl, Registry.ofElements_map_elements hcompact.hyperarcs
    h.hyperarcs_indexed (f := HyperArc.tidied) fun _ => rfl]
  rfl

/-- **A well formed graph is described so that it can be connected again.** -/
theorem connect_describe_eq_ok (h : g.WellFormed) : g.describe.connect = .ok g.copy.tidied := by
  have hcopy := wellFormed_copy h.members_distinct
  have hnodup : (g.copy.describe.nodes.map (·.name)).Nodup := by
    have hnames := hcopy.nodes_indexed.nodup_names_elements
    show ((g.copy.nodes.elements.map describeNode).map _).Nodup
    rwa [List.map_map]
  rw [(relocated_copy h).describe_eq,
    GraphDescription.connect_eq_ok hnodup references_describe,
    connected_describe g.compact_copy hcopy]

/-- Copying changes no labels and no flags. -/
theorem copy_tidied_eq_self_iff (h : g.WellFormed) :
    g.copy.tidied = g.copy ↔ g.LabelsDistinct ∧
      ∀ key arc, g.arc? key = some arc → arc.doublyDirected = true → arc.directed = true := by
  have hsame := relocated_copy h
  have hlabels : g.copy.LabelsDistinct ↔ g.LabelsDistinct :=
    ⟨fun hcopy => ⟨hsame.allAttributes ▸ hcopy.elements, hcopy.globals⟩, labelsDistinct_copy h⟩
  rw [tidied_eq_self_iff, hlabels]
  refine and_congr_right fun _ => ?_
  constructor
  · intro hdirected key arc hkey
    have harc := Registry.mem_elements_iff.2 ⟨key, hkey⟩
    rw [hsame.arcs.elements] at harc
    obtain ⟨source, hsource, rfl⟩ := List.mem_map.1 harc
    exact hdirected source hsource
  · intro hdirected arc harc
    have hmoved : g.spread.move arc ∈ g.arcs.elements :=
      hsame.arcs.elements ▸ List.mem_map_of_mem harc
    obtain ⟨key, hkey⟩ := Registry.mem_elements_iff.1 hmoved
    have hflags := hdirected key _ hkey
    exact hflags

/-- **A graph that is described and connected again is its copy, tidied**, and its copy as
it stands just if no label is listed twice and every arc with arrow heads at both ends is
directed. -/
theorem connect_describe (h : g.WellFormed) :
    g.describe.connect = .ok g.copy.tidied ∧
      (g.copy.tidied = g.copy ↔ g.LabelsDistinct ∧
        ∀ key arc, g.arc? key = some arc → arc.doublyDirected = true → arc.directed = true) := by
  refine ⟨?_, copy_tidied_eq_self_iff h⟩
  exact connect_describe_eq_ok h

/-- An edge with arrow heads at both ends that is not directed. -/
def twoHeads : Graph where
  nodes := .ofElements [{ name := "a" }, { name := "b" }]
  arcs := .ofElements [{
    name := "e", source := some ⟨0⟩, target := some ⟨1⟩, directed := false,
    doublyDirected := true }]

/-- The ends of the arc are there. -/
theorem twoHeads_wellFormed : twoHeads.WellFormed :=
  wellFormed_of_copy_eq rfl (membersDistinct_of_no_hyperarcs rfl)

/-- The arc comes back directed. -/
theorem connect_describe_twoHeads :
    twoHeads.describe.connect = .ok twoHeads.copy.tidied ∧
      twoHeads.copy.tidied.arcs.elements.map (·.directed) = [true] :=
  ⟨(connect_describe twoHeads_wellFormed).1, by decide +kernel⟩

/-- So what comes back is not the copy. -/
theorem connect_describe_ne_copy :
    twoHeads.WellFormed ∧ twoHeads.describe.connect ≠ .ok twoHeads.copy := by
  refine ⟨twoHeads_wellFormed, fun h => ?_⟩
  have hflags := congrArg (fun g => g.toOption.map fun g => g.arcs.elements.map (·.directed)) h
  exact absurd hflags (by decide +kernel)

end Graph

end GraphGrammar
