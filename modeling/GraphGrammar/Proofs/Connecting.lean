import GraphGrammar.Proofs.Described

/-!
# Connecting a description

A description is refused for the first name of a node that an earlier node has, and otherwise
for the first name referred to that no node has. If there is neither, connecting leads to the
graph that is described, and this graph is reproduced by describing and connecting it, to the
last entry of an index (`GraphDescription.connect_exact`).

The names of arcs and hyperarcs are never a reason to refuse, since nothing refers to them: they
are given in turn, with a number put behind a name that is taken.
-/

namespace GraphGrammar

open Attributed

/-! ## What is connected is described

`GraphDescription.connected` is the graph that connecting builds if no reference is left
unresolved. It is what the description describes, because each registry is built of the
descriptions in their order. -/

namespace Registry

variable {κ : Kind} {α δ : Type} [Attributed α] {descriptions : List δ} {Describes : δ → α → Prop}

/-- A registry that is built of what was made of descriptions has it in their order. -/
theorem enumerates_ofElements (make : δ → α)
    (hmake : ∀ (key : Key κ) d name, descriptions[key.index]? = some d →
      (ofElements (descriptions.map make)).get? key = some (renamed (make d) name) →
      Describes d (renamed (make d) name)) :
    (ofElements (descriptions.map make) : Registry κ α).Enumerates descriptions Describes := by
  obtain ⟨hcompact, -, hlength⟩ := compact_indexed_ofElements (κ := κ) (descriptions.map make)
  rw [List.length_map] at hlength
  refine ⟨by rw [hcompact.keys_eq, hlength], hlength, fun key a ha => ?_⟩
  obtain ⟨b, name, hb, rfl⟩ := exists_of_get?_ofElements ha
  rw [List.getElem?_map] at hb
  obtain ⟨d, hd, rfl⟩ := Option.map_eq_some_iff.1 hb
  exact ⟨d, hd, hmake key d name hd ha⟩

/-- Its names are given in turn. -/
theorem namesInTurn_ofElements (descriptions : List δ) (make : δ → α) :
    NamesInTurn (fun key => descriptions[key.index]?.map fun d => nameOf (make d))
      (ofElements (descriptions.map make) : Registry κ α).nameUnder := by
  have hnames := (namedInTurn_ofElements (κ := κ) (descriptions.map make)).names
  have hlisted : (listed (descriptions.map make) : Registry κ α).nameUnder
      = fun key => descriptions[key.index]?.map fun d => nameOf (make d) := by
    funext key
    rw [nameUnder, get?_listed, List.getElem?_map, Option.map_map]
    rfl
  rwa [hlisted] at hnames

end Registry

/-- The attributes made of a description are described by it. -/
theorem ElementDescription.describes_attributes (d : ElementDescription) (name : Name) :
    d.Describes { d.attributes with name } where
  labels := LabelSet.toList_ofList d.labels
  values := rfl
  typeTag := rfl

namespace GraphDescription

/-- The graph is well formed, with its indices in order. -/
theorem wellFormed_connected (d : GraphDescription) : d.connected.WellFormed where
  nodes_indexed := d.indexed_nodeRegistry
  arcs_indexed := (Registry.compact_indexed_ofElements _).2.1
  hyperarcs_indexed := (Registry.compact_indexed_ofElements _).2.1
  ends_alive key arc harc := by
    obtain ⟨given, hgiven, name, rfl⟩ := Graph.exists_mem_of_get?_ofElements harc
    obtain ⟨x, -, rfl⟩ := List.mem_map.1 hgiven
    exact Graph.ends_alive_of_toArc (g := d.connected) d.indexed_nodeRegistry x
  members_alive key hyperarc hh := by
    obtain ⟨given, hgiven, name, rfl⟩ := Graph.exists_mem_of_get?_ofElements hh
    obtain ⟨x, -, rfl⟩ := List.mem_map.1 hgiven
    exact Graph.members_alive_of_toHyperArc (g := d.connected) d.indexed_nodeRegistry x
  members_distinct key hyperarc hh := by
    obtain ⟨given, hgiven, name, rfl⟩ := Graph.exists_mem_of_get?_ofElements hh
    obtain ⟨x, -, rfl⟩ := List.mem_map.1 hgiven
    exact nodup_distinctMembers _

variable {d : GraphDescription} (hnodup : (d.nodes.map (·.name)).Nodup)

include hnodup

/-- A name of a node that is described is found, and the node bears it. -/
theorem exists_find?_nodeRegistry {name : Name} (hname : name ∈ d.nodes.map (·.name)) :
    ∃ key, d.nodeRegistry.find? name = some key ∧ d.connected.nodeName? (some key) = some name := by
  obtain ⟨key, hfind⟩ := NameMap.contains_iff.1 ((contains_nodeRegistry_iff hnodup).2 hname)
  obtain ⟨node, hnode, rfl⟩ := d.indexed_nodeRegistry.exists_of_find? hfind
  exact ⟨key, hfind, congrArg (Option.map fun node : Node => node.name) hnode⟩

/-- An end is at the node that bears the name. -/
theorem nodeName?_bind_find? {reference : Option Name}
    (h : ∀ name, reference = some name → name ∈ d.nodes.map (·.name)) :
    d.connected.nodeName? (reference.bind d.nodeRegistry.find?) = reference := by
  cases reference with
  | none => rfl
  | some name =>
    obtain ⟨key, hfind, hname⟩ := exists_find?_nodeRegistry hnodup (h name rfl)
    rw [Option.bind_some, hfind, hname]

/-- The members are the nodes that bear the names, each at its first place. Names and keys of
nodes are in one-to-one correspondence when the names are distinct, so a member comes twice
exactly if its name does. -/
theorem nodeName?_distinctMembers {names : List Name}
    (h : ∀ name ∈ names, name ∈ d.nodes.map (·.name)) :
    (distinctMembers (names.filterMap d.nodeRegistry.find?)).map
      (fun key => d.connected.nodeName? (some key)) = names.eraseDups.map some := by
  have hnames : (names.filterMap d.nodeRegistry.find?).map
      (fun key => d.connected.nodeName? (some key)) = names.map some := by
    rw [List.map_filterMap, ← List.filterMap_eq_map]
    refine List.filterMap_congr fun name hname => ?_
    obtain ⟨key, hfind, hkey⟩ := exists_find?_nodeRegistry hnodup (h name hname)
    rw [hfind, Option.map_some, hkey]
    rfl
  rw [distinctMembers_eq, ← eraseDups_map, hnames, eraseDups_map]
  · exact fun _ _ _ _ heq => Option.some.inj heq
  · intro a ha b hb heq
    obtain ⟨name, hname, ha⟩ := List.mem_filterMap.1 ha
    obtain ⟨other, hother, hb⟩ := List.mem_filterMap.1 hb
    obtain ⟨_, hfind, hkey⟩ := exists_find?_nodeRegistry hnodup (h name hname)
    obtain ⟨_, hfind', hkey'⟩ := exists_find?_nodeRegistry hnodup (h other hother)
    rw [hfind] at ha
    rw [hfind'] at hb
    cases ha
    cases hb
    rw [hkey, hkey', Option.some_inj] at heq
    rw [heq, hfind'] at hfind
    exact (Option.some.inj hfind).symm

/-- **What a description leads to is what it describes.** Each of the parts is checked by itself:
nodes keep their names, as these are distinct; arcs and hyperarcs are named in turn; and a
reference whose name is borne is looked up as the node that bears it. -/
theorem describes_connected
    (hreferences : ∀ name ∈ d.references, name ∈ d.nodes.map (·.name)) :
    d.Describes d.connected := by
  have hreferencesArc : ∀ x ∈ d.arcs, ∀ name ∈ x.references, name ∈ d.nodes.map (·.name) :=
    fun x hx name hname => hreferences name
      (List.mem_append_left _ (List.mem_flatMap.2 ⟨x, hx, hname⟩))
  have hreferencesHyperArc : ∀ x ∈ d.hyperarcs, ∀ name ∈ x.members, name ∈ d.nodes.map (·.name) :=
    fun x hx name hname => hreferences name
      (List.mem_append_right _ (List.mem_flatMap.2 ⟨x, hx, hname⟩))
  refine {
    wellFormed := d.wellFormed_connected
    name := rfl
    globalLabels := LabelSet.toList_ofList d.globalLabels
    globalVariables := rfl
    nodes := Registry.enumerates_ofElements _ fun key x name hx hnode => ?_
    arcs := Registry.enumerates_ofElements _ fun key x name hx _ => ?_
    arcNames := Registry.namesInTurn_ofElements d.arcs (·.toArc d.nodeRegistry.find?)
    hyperarcs := Registry.enumerates_ofElements _ fun key x name hx _ => ?_
    hyperarcNames := Registry.namesInTurn_ofElements d.hyperarcs
      (·.toHyperArc d.nodeRegistry.find?) }
  · -- no name of a node is given away, so each is kept
    rw [Registry.get?_ofElements (d.names_toNode ▸ hnodup), List.getElem?_map, hx,
      Option.map_some, Option.some_inj] at hnode
    rw [← hnode]
    exact ⟨x.describes_attributes x.name, rfl, rfl⟩
  · have hmem := hreferencesArc x (List.mem_of_getElem? hx)
    have hend : ∀ reference ∈ [x.source, x.target], ∀ name, reference = some name →
        name ∈ d.nodes.map (·.name) := fun reference hreference name heq =>
      hmem name (List.mem_filterMap.2 ⟨reference, hreference, heq⟩)
    exact ⟨x.describes_attributes name,
      nodeName?_bind_find? hnodup (hend x.source (List.mem_pair.2 (.inl rfl))),
      nodeName?_bind_find? hnodup (hend x.target (List.mem_pair.2 (.inr rfl))), rfl, rfl⟩
  · exact ⟨x.describes_attributes name,
      nodeName?_distinctMembers hnodup (hreferencesHyperArc x (List.mem_of_getElem? hx))⟩

end GraphDescription

/-! ## What is refused

Connecting goes through the nodes first, and refuses a name the second time it comes. Then it
goes through the references of arcs and hyperarcs. So the first fault is determined by the
description, and with it the error. -/

/-- The name is the first in the list that repeats one before it. -/
def IsFirstRepeated (names : List Name) (name : Name) : Prop :=
  ∃ before after, names = before ++ name :: after ∧ before.Nodup ∧ name ∈ before

/-- The name is the first of those referred to that is not among the names. -/
def IsFirstUnresolved (names references : List Name) (name : Name) : Prop :=
  ∃ before after, references = before ++ name :: after ∧ (∀ earlier ∈ before, earlier ∈ names) ∧
    name ∉ names

/-- Names that are not distinct have a first one that repeats one before it. -/
theorem exists_isFirstRepeated {names : List Name} (h : ¬ names.Nodup) :
    ∃ name, IsFirstRepeated names name := by
  induction names using List.reverseRecOn with
  | nil => exact absurd List.nodup_nil h
  | append_singleton front last ih =>
    by_cases hfront : front.Nodup
    · refine ⟨last, front, [], rfl, hfront, not_not.1 fun hnew => h ?_⟩
      exact List.nodup_append.2 ⟨hfront, List.nodup_singleton last,
        fun name hname other hother heq =>
        hnew (List.mem_singleton.1 hother ▸ heq ▸ hname)⟩
    · obtain ⟨name, before, after, rfl, hrepeated⟩ := ih hfront
      exact ⟨name, before, after ++ [last], by simp, hrepeated⟩

/-- Names with a first repeated one are not distinct. -/
theorem IsFirstRepeated.not_nodup {names : List Name} {name : Name}
    (h : IsFirstRepeated names name) :
    ¬ names.Nodup := by
  obtain ⟨before, after, rfl, -, hname⟩ := h
  exact fun hnodup => (List.nodup_append.1 hnodup).2.2 name hname name List.mem_cons_self rfl

namespace GraphDescription

variable {d : GraphDescription}

/-- **A repeated name of a node is refused.** -/
theorem connect_of_isFirstRepeated {name : Name}
    (h : IsFirstRepeated (d.nodes.map (·.name)) name) :
    d.connect = .fail (.duplicateName .node name) := by
  obtain ⟨before, after, hnames, hnodup, hmem⟩ := h
  obtain ⟨front, back, hnodes, rfl, hback⟩ := List.map_eq_append_iff.1 hnames
  obtain ⟨node, rest, rfl, rfl, -⟩ := List.map_eq_cons_iff.1 hback
  -- the nodes before are added, and then the name is taken
  have htaken := (contains_nodeRegistry_iff (d := { d with nodes := front }) hnodup).2 hmem
  have hfront := foldlM_addNode front
    { name := d.name, globalLabels := .ofList d.globalLabels, globalVariables := d.globalVariables }
    hnodup fun _ _ => rfl
  have hrefused : ∀ g : Graph, g.nodes.names.contains node.name = true →
      (g.addNode node.toNode).map Prod.snd = .error (.of (.duplicateName .node node.name)) := by
    intro g hg
    rw [Graph.addNode, if_pos (show g.nodes.names.contains node.toNode.name = true from hg)]
    rfl
  unfold connect
  rw [hnodes]
  dsimp only
  rw [List.foldlM_append, bind_of_eq_ok hfront, List.foldlM_cons, hrefused _ htaken]
  rfl

/-- A reference is unresolved if no node has the name, and the failure says which name it is. -/
theorem unresolved?_eq_some_iff (hnodup : (d.nodes.map (·.name)).Nodup) {name : Name}
    {failure : Report GraphError} :
    Graph.unresolved? d.nodeRegistry name = some failure ↔
      name ∉ d.nodes.map (·.name) ∧ failure = .of (.unresolvedNodeName name) := by
  rw [← contains_nodeRegistry_iff hnodup, Graph.unresolved?]
  cases d.nodeRegistry.names.contains name <;> simp [eq_comm]

/-- With distinct names of nodes, the first name that is none of these is refused. -/
theorem connect_eq_error_iff_of_nodup (hnodup : (d.nodes.map (·.name)).Nodup)
    {failure : Report GraphError} :
    d.connect = .error failure ↔ ∃ name,
      IsFirstUnresolved (d.nodes.map (·.name)) d.references name ∧
        failure = .of (.unresolvedNodeName name) := by
  have hfirst : d.connect = .error failure ↔
      d.references.findSome? (Graph.unresolved? d.nodeRegistry) = some failure := by
    rw [connect_eq hnodup]
    cases d.references.findSome? (Graph.unresolved? d.nodeRegistry) <;> simp
  simp only [hfirst, List.findSome?_eq_some_iff, unresolved?_eq_some_iff hnodup,
    unresolved?_eq_none_iff hnodup]
  constructor
  · rintro ⟨before, name, after, heq, ⟨hname, hfailure⟩, hbefore⟩
    exact ⟨name, ⟨before, after, heq, hbefore, hname⟩, hfailure⟩
  · rintro ⟨name, ⟨before, after, heq, hbefore, hname⟩, hfailure⟩
    exact ⟨before, name, after, heq, ⟨hname, hfailure⟩, hbefore⟩

/-- **A description is refused for one of two reasons**: for the first name of a node that
repeats one before it, or, if there is none, for the first name referred to that is no name of
a node. -/
theorem connect_eq_error_iff {failure : Report GraphError} :
    d.connect = .error failure ↔
      (∃ name, IsFirstRepeated (d.nodes.map (·.name)) name ∧
        failure = .of (.duplicateName .node name)) ∨
      (d.nodes.map (·.name)).Nodup ∧ ∃ name,
        IsFirstUnresolved (d.nodes.map (·.name)) d.references name ∧
          failure = .of (.unresolvedNodeName name) := by
  by_cases hnodup : (d.nodes.map (·.name)).Nodup
  · rw [connect_eq_error_iff_of_nodup hnodup]
    constructor
    · exact fun h => .inr ⟨hnodup, h⟩
    · rintro (⟨name, hname, -⟩ | ⟨-, h⟩)
      · exact absurd hnodup hname.not_nodup
      · exact h
  · constructor
    · intro hfailure
      obtain ⟨name, hname⟩ := exists_isFirstRepeated hnodup
      rw [connect_of_isFirstRepeated hname] at hfailure
      exact .inl ⟨name, hname, (Except.error.inj hfailure).symm⟩
    · rintro (⟨name, hname, rfl⟩ | ⟨hnodup', -⟩)
      · exact connect_of_isFirstRepeated hname
      · exact absurd hnodup' hnodup

/-- It is accepted otherwise, and leads to one graph. -/
theorem connect_eq_ok_iff {g : Graph} :
    d.connect = .ok g ↔
      ((d.nodes.map (·.name)).Nodup ∧ ∀ name ∈ d.references, name ∈ d.nodes.map (·.name)) ∧
        d.connected = g := by
  by_cases hnodup : (d.nodes.map (·.name)).Nodup
  · have hresolved : d.references.findSome? (Graph.unresolved? d.nodeRegistry) = none ↔
        ∀ name ∈ d.references, name ∈ d.nodes.map (·.name) := by
      simp only [List.findSome?_eq_none_iff, unresolved?_eq_none_iff hnodup]
    rw [connect_eq hnodup, ← hresolved]
    cases d.references.findSome? (Graph.unresolved? d.nodeRegistry) <;> simp [hnodup]
  · obtain ⟨name, hname⟩ := exists_isFirstRepeated hnodup
    rw [connect_of_isFirstRepeated hname]
    simp [hnodup, Outcome.fail]

/-- **A description is refused if two nodes have one name or some reference is to none.** -/
theorem exists_connect_eq_error_iff :
    (∃ failure, d.connect = .error failure) ↔
      ¬ (d.nodes.map (·.name)).Nodup ∨ ∃ name ∈ d.references, name ∉ d.nodes.map (·.name) := by
  have hrefused : (∃ failure, d.connect = .error failure) ↔ ¬ ∃ g, d.connect = .ok g := by
    cases d.connect <;> simp
  rw [hrefused]
  simp only [connect_eq_ok_iff, exists_and_left, exists_eq', and_true, not_and_or, not_forall,
    exists_prop]

end GraphDescription

/-! ## There and back again

A graph is described by names, so a graph whose indices and slots are in order is determined by
its description up to what a description does not tell apart. What was connected is in order, and
so it comes back as it was. -/

namespace GraphDescription

variable {d : GraphDescription} {g : Graph}

/-- What is described has nothing in it that a description does not tell apart. Labels are taken
without repeats, and an arc that is doubly directed is taken as directed. -/
theorem Describes.tidied_eq_self (h : d.Describes g) : g.tidied = g := by
  have hattributes : ∀ {x : ElementDescription} {a : Attributes}, x.Describes a →
      a.labels.Distinct := by
    intro x a hx
    rw [LabelSet.Distinct, hx.labels]
    exact nodup_eraseDups x.labels
  refine Graph.tidied_eq_self_iff.2 ⟨⟨fun a ha => ?_, ?_⟩, fun arc harc => ?_⟩
  · rcases List.mem_append.1 ha with ha | ha
    · rcases List.mem_append.1 ha with ha | ha
      · obtain ⟨node, hnode, rfl⟩ := List.mem_map.1 ha
        obtain ⟨key, hkey⟩ := Registry.mem_elements_iff.1 hnode
        obtain ⟨x, -, hx⟩ := h.nodes.described key node hkey
        exact hattributes hx.attributes
      · obtain ⟨arc, harc, rfl⟩ := List.mem_map.1 ha
        obtain ⟨key, hkey⟩ := Registry.mem_elements_iff.1 harc
        obtain ⟨x, -, hx⟩ := h.arcs.described key arc hkey
        exact hattributes hx.attributes
    · obtain ⟨hyperarc, hh, rfl⟩ := List.mem_map.1 ha
      obtain ⟨key, hkey⟩ := Registry.mem_elements_iff.1 hh
      obtain ⟨x, -, hx⟩ := h.hyperarcs.described key hyperarc hkey
      exact hattributes hx.attributes
  · rw [LabelSet.Distinct, h.globalLabels]
    exact nodup_eraseDups d.globalLabels
  · obtain ⟨key, hkey⟩ := Registry.mem_elements_iff.1 harc
    obtain ⟨x, -, hx⟩ := h.arcs.described key arc hkey
    rw [hx.directed, hx.doublyDirected]
    exact fun hdoubly => by rw [hdoubly, Bool.or_true]

/-- **What is described is described so that it is connected again**, as it was. -/
theorem Describes.connect_again (h : d.Describes g) : g.describe.connect = .ok g := by
  have hcompact : g.Compact := ⟨h.nodes.compact, h.arcs.compact, h.hyperarcs.compact⟩
  rw [Graph.connect_describe_eq_ok h.wellFormed, Graph.copy_eq_self hcompact h.wellFormed,
    h.tidied_eq_self]

/-- **Connecting is exact and stable.** A description is

* refused for the first name of a node that an earlier node has, and otherwise for the first
  name that an end or a member refers to and no node has;
* so refused just if two nodes have one name or some reference is to no node;
* connected otherwise, to the one graph it describes;
* and that graph is reproduced by describing it and connecting the description. -/
theorem connect_exact (d : GraphDescription) :
    let names := d.nodes.map (·.name)
    (∀ failure, d.connect = .error failure ↔
      (∃ name, IsFirstRepeated names name ∧ failure = .of (.duplicateName .node name)) ∨
        names.Nodup ∧ ∃ name, IsFirstUnresolved names d.references name ∧
          failure = .of (.unresolvedNodeName name)) ∧
      ((∃ failure, d.connect = .error failure) ↔
        ¬ names.Nodup ∨ ∃ name ∈ d.references, name ∉ names) ∧
      (∀ g, d.connect = .ok g ↔
        (names.Nodup ∧ ∀ name ∈ d.references, name ∈ names) ∧ d.Describes g) ∧
      ∀ g, d.connect = .ok g → g.describe.connect = .ok g := by
  intro names
  have hok : ∀ g, d.connect = .ok g ↔
      (names.Nodup ∧ ∀ name ∈ d.references, name ∈ names) ∧ d.Describes g := by
    intro g
    rw [connect_eq_ok_iff]
    refine and_congr_right fun ⟨hnodup, hreferences⟩ => ?_
    have hconnected := describes_connected hnodup hreferences
    exact ⟨fun heq => heq ▸ hconnected, hconnected.unique⟩
  exact ⟨fun failure => connect_eq_error_iff, exists_connect_eq_error_iff, hok,
    fun g hg => ((hok g).1 hg).2.connect_again⟩

/-- Labels and members are listed at their first places, and the second of two arcs of one
name is numbered. -/
example :
    let d : GraphDescription := {
      nodes := [{ name := "a", labels := ["p", "q", "p"] }, { name := "b" }]
      arcs := [{ name := "e", source := some "b" }, { name := "e", target := some "a" }]
      hyperarcs := [{ name := "h", members := ["b", "a", "b"] }] }
    d.connect.toOption.map (fun g => (g.nodes.elements.map (·.labels.toList),
        g.arcs.elements.map (·.name), g.hyperarcs.elements.map (·.members)))
      = some ([["p", "q"], []], ["e", "e_1"], [[⟨1⟩, ⟨0⟩]]) := by decide +kernel

end GraphDescription

end GraphGrammar
