import GraphGrammar.Proofs.Adjacency
import GraphGrammar.Proofs.Context

/-!
# Contexts that fit both sides

A context fits a side if its elements are there by name, its arcs end there at the nodes at
which they end in the context, and its hyperarcs have there the members that they have in
the context. Ends and members that the context leaves open may be anything. Checking a
context against L and R is checking that it fits both (`Context.check_eq_ok_iff`).

A derived context is made of the elements that L and R share, each of them cut down to what
the two sides agree on (`Context.derive_eq`). No two of them have one name, since those of L
do not, so none is numbered, and the context fits both sides although nothing checks it
(`Context.fits_shared`). Its elements stand in the order of L, and none that both sides name
is missing (`Context.names_shared`).

Building a rule checks a context that is given and not one that is derived, which is in order as
the latter fits anyway. It is also why a rule that is taken apart, which gives the
derived context as its own, can be built again.
-/

namespace GraphGrammar

open Attributed

/-- A pass over the elements that a list leads to is a pass over the list. -/
theorem foldl_filterMap_elim {α β γ : Type} (f : α → Option β) (g : γ → β → γ) (xs : List α)
    (c : γ) : (xs.filterMap f).foldl g c = xs.foldl (fun c x => (f x).elim c (g c)) c := by
  induction xs generalizing c with
  | nil => rfl
  | cons x rest ih =>
    rw [List.filterMap_cons, List.foldl_cons, ← ih]
    cases f x <;> rfl

/-- Elements made of elements with distinct names, under their names, have distinct names. -/
theorem nodup_names_filterMap {α : Type} [Attributed α] {f : α → Option α} {elements : List α}
    (hf : ∀ a b, f a = some b → nameOf b = nameOf a) (h : (elements.map nameOf).Nodup) :
    ((elements.filterMap f).map nameOf).Nodup := by
  have hdistinct : elements.Pairwise fun a b => nameOf a ≠ nameOf b := List.pairwise_map.1 h
  refine List.pairwise_map.2 (List.pairwise_filterMap.2 (hdistinct.imp ?_))
  intro a b hne a' ha' b' hb'
  rw [hf a a' ha', hf b b' hb']
  exact hne

namespace Context

variable {l k r : Graph}

/-! ## What is checked

The check goes through the elements of the context and compares them with the elements of the
same name on each side. What it comes to is `Context.Fits` for each of the two sides. -/

/-- A side has an arc of the context, attached as it is there. -/
def ArcFits (k : Graph) (arc : Arc) (side : Graph) : Prop :=
  ∃ other, side.arcs.getNamed? arc.name = some other ∧
    ∀ e node, arc.atEnd e = some node →
      k.nodeName? (some node) = side.nodeName? (other.atEnd e)

/-- A side has a hyperarc of the context, with the members that it has there. -/
def HyperArcFits (k : Graph) (hyperarc : HyperArc) (side : Graph) : Prop :=
  ∃ other, side.hyperarcs.getNamed? hyperarc.name = some other ∧
    ∀ node ∈ hyperarc.members, ∃ member ∈ other.members,
      side.nodeName? (some member) = k.nodeName? (some node)

/-- **A context fits a side.** Of an arc or hyperarc it is asked that the side has one of its
name, connected as it is. -/
structure Fits (k side : Graph) : Prop where
  nodes : ∀ node ∈ k.nodes.elements, ∃ key, side.nodes.find? node.name = some key
  arcs : ∀ arc ∈ k.arcs.elements, ArcFits k arc side
  hyperarcs : ∀ hyperarc ∈ k.hyperarcs.elements, HyperArcFits k hyperarc side

/-- A check of both sides. -/
theorem forM_sides_eq_ok_iff {check : Side × Graph → Outcome RuleError Unit} {P : Graph → Prop}
    (h : ∀ side g, check (side, g) = .ok () ↔ P g) :
    (sides l r).forM check = .ok () ↔ P l ∧ P r := by
  rw [forM_eq_ok_iff]
  simp [sides, h]

/-- A node of the context must be on both sides by name. -/
theorem checkNode_eq_ok_iff {node : Node} :
    checkNode l r node = .ok () ↔
      (∃ key, l.nodes.find? node.name = some key) ∧ ∃ key, r.nodes.find? node.name = some key := by
  refine forM_sides_eq_ok_iff (P := fun g => ∃ key, g.nodes.find? node.name = some key)
    fun side g => ?_
  dsimp only
  rw [← Option.isSome_iff_exists]
  split
  · rename_i h
    exact iff_of_true rfl h
  · rename_i h
    exact iff_of_false nofun h

/-- An end that the context attaches must be at the node of the same name. An end that it leaves
open may be anywhere. -/
theorem checkEnd_eq_ok_iff {arc other : Arc} {side : Side} {g : Graph} {e : ArcEnd} :
    checkEnd k arc side g other e = .ok () ↔
      ∀ node, arc.atEnd e = some node → k.nodeName? (some node) = g.nodeName? (other.atEnd e) := by
  unfold checkEnd
  cases arc.atEnd e with
  | none => simp
  | some node =>
    simp only [Option.isSome_some, Bool.true_and, bne_iff_ne, Option.some.injEq, forall_eq']
    split
    · rename_i h
      exact iff_of_false nofun h
    · rename_i h
      exact iff_of_true rfl (not_not.1 h)

/-- An arc of the context must fit on both sides. -/
theorem checkArc_eq_ok_iff {arc : Arc} :
    checkArc l k r arc = .ok () ↔ ArcFits k arc l ∧ ArcFits k arc r := by
  refine forM_sides_eq_ok_iff fun side g => ?_
  unfold ArcFits
  dsimp only
  cases g.arcs.getNamed? arc.name with
  | none => exact iff_of_false nofun nofun
  | some other =>
    simp only [forM_eq_ok_iff, checkEnd_eq_ok_iff, Option.some.injEq, exists_eq_left']
    exact ⟨fun h e => h e (by cases e <;> decide), fun h e _ => h e⟩

/-- A hyperarc of the context must fit on both sides. -/
theorem checkHyperArc_eq_ok_iff {hyperarc : HyperArc} :
    checkHyperArc l k r hyperarc = .ok () ↔
      HyperArcFits k hyperarc l ∧ HyperArcFits k hyperarc r := by
  refine forM_sides_eq_ok_iff fun side g => ?_
  unfold HyperArcFits
  dsimp only
  cases g.hyperarcs.getNamed? hyperarc.name with
  | none => exact iff_of_false nofun nofun
  | some other =>
    have hmembers : (hyperarc.members.all fun key =>
        (other.members.map fun key => g.nodeName? (some key)).contains
          (k.nodeName? (some key))) = true ↔
        ∀ node ∈ hyperarc.members, ∃ member ∈ other.members,
          g.nodeName? (some member) = k.nodeName? (some node) := by
      simp only [List.all_eq_true, List.contains_iff_mem, List.mem_map]
    simp only [Option.some.injEq, exists_eq_left', ← hmembers]
    split
    · rename_i h
      exact iff_of_true rfl h
    · rename_i h
      exact iff_of_false nofun h

/-- **Checking a context is checking that it fits both sides.** -/
theorem check_eq_ok_iff : check l k r = .ok () ↔ Fits k l ∧ Fits k r := by
  have hparts : check l k r = .ok () ↔
      (∀ node ∈ k.nodes.elements, checkNode l r node = .ok ()) ∧
        (∀ arc ∈ k.arcs.elements, checkArc l k r arc = .ok ()) ∧
        ∀ hyperarc ∈ k.hyperarcs.elements, checkHyperArc l k r hyperarc = .ok () := by
    rw [← forM_eq_ok_iff, ← forM_eq_ok_iff, ← forM_eq_ok_iff]
    refine bind_eq_ok_iff.trans ⟨?_, ?_⟩
    · rintro ⟨_, hnodes, h⟩
      obtain ⟨_, harcs, hhyperarcs⟩ := bind_eq_ok_iff.1 h
      exact ⟨hnodes, harcs, hhyperarcs⟩
    · rintro ⟨hnodes, harcs, hhyperarcs⟩
      exact ⟨(), hnodes, bind_eq_ok_iff.2 ⟨(), harcs, hhyperarcs⟩⟩
  simp only [hparts, checkNode_eq_ok_iff, checkArc_eq_ok_iff, checkHyperArc_eq_ok_iff]
  constructor
  · rintro ⟨hnodes, harcs, hhyperarcs⟩
    exact ⟨⟨fun a ha => (hnodes a ha).1, fun a ha => (harcs a ha).1,
      fun a ha => (hhyperarcs a ha).1⟩,
      ⟨fun a ha => (hnodes a ha).2, fun a ha => (harcs a ha).2, fun a ha => (hhyperarcs a ha).2⟩⟩
  · rintro ⟨hl, hr⟩
    exact ⟨fun a ha => ⟨hl.nodes a ha, hr.nodes a ha⟩, fun a ha => ⟨hl.arcs a ha, hr.arcs a ha⟩,
      fun a ha => ⟨hl.hyperarcs a ha, hr.hyperarcs a ha⟩⟩

/-! ## What L and R share

Deriving goes through the elements of L and puts in what R has as well. Each kind has a function
that says what is shared of one element, with no mention of the graph that is being built but for
its nodes. -/

/-- What L and R share of a node of L. -/
def sharedNode (r : Graph) (node : Node) : Option Node :=
  (r.nodes.getNamed? node.name).map fun other =>
    { node with labels := node.labels.inter other.labels }

/-- What L and R share of an arc of L, attached to the nodes of a context. -/
def sharedArc (l r k : Graph) (arc : Arc) : Option Arc :=
  (r.arcs.getNamed? arc.name).map fun other =>
    { name := arc.name
      labels := arc.labels.inter other.labels
      source := sharedEnd l r k arc other .source
      target := sharedEnd l r k arc other .target
      directed := arc.directed
      doublyDirected := arc.doublyDirected }

/-- The names of the members that a hyperarc of L and one of R share. -/
def sharedMembers (l r : Graph) (hyperarc other : HyperArc) : List Name :=
  (hyperarc.members.filterMap fun key => l.nodeName? (some key)).filter fun name =>
    (other.members.map fun key => r.nodeName? (some key)).contains (some name)

/-- What L and R share of a hyperarc of L, with members among the nodes of a context. -/
def sharedHyperArc (l r k : Graph) (hyperarc : HyperArc) : Option HyperArc :=
  (r.hyperarcs.getNamed? hyperarc.name).map fun other =>
    { name := hyperarc.name
      labels := hyperarc.labels.inter other.labels
      members := distinctMembers ((sharedMembers l r hyperarc other).filterMap k.nodes.find?) }

/-- The nodes that L and R share. -/
def sharedNodes (l r : Graph) : Graph :=
  { nodes := .ofElements (l.nodes.elements.filterMap (sharedNode r)) }

/-- **What L and R share.** It is written down without a loop, kind by kind, and `derive_eq` says
that deriving leads to it. -/
def shared (l r : Graph) : Graph :=
  { sharedNodes l r with
    arcs := .ofElements (l.arcs.elements.filterMap (sharedArc l r (sharedNodes l r)))
    hyperarcs :=
      .ofElements (l.hyperarcs.elements.filterMap (sharedHyperArc l r (sharedNodes l r))) }

/-- Going through the nodes puts in the shared ones, in their order. -/
theorem foldl_shareNode (nodes : List Node) (k : Graph) :
    nodes.foldl (shareNode r) k
      = { k with
          nodes := (nodes.filterMap (sharedNode r)).foldl
            (fun r a => (r.pushUnique a).2) k.nodes } := by
  induction nodes generalizing k with
  | nil => rfl
  | cons node rest ih =>
    rw [List.foldl_cons, ih, List.filterMap_cons, shareNode, sharedNode]
    cases r.nodes.getNamed? node.name <;> rfl

/-- An end that is shared is at a node of the context, which bears the name of the node there
in L and in R. -/
theorem sharedEnd_eq_some (hk : Graph.Indexed k.nodes) {arc other : Arc} {e : ArcEnd}
    {node : NodeKey} (h : sharedEnd l r k arc other e = some node) :
    ∃ name, k.nodeName? (some node) = some name ∧ l.nodeName? (arc.atEnd e) = some name ∧
      r.nodeName? (other.atEnd e) = some name := by
  unfold sharedEnd at h
  split at h
  · rename_i name name' hl hr
    split at h
    · rename_i heq
      obtain ⟨a, ha, hname⟩ := hk.exists_of_find? h
      have hname' : k.nodeName? (some node) = some name := by
        rw [← hname]
        exact congrArg (Option.map fun node : Node => node.name) ha
      exact ⟨name, hname', hl, heq ▸ hr⟩
    · exact nomatch h
  · exact nomatch h

/-- So is a member. -/
theorem exists_of_mem_sharedMembers (hk : Graph.Indexed k.nodes) {hyperarc other : HyperArc}
    {node : NodeKey}
    (h : node ∈ distinctMembers ((sharedMembers l r hyperarc other).filterMap k.nodes.find?)) :
    ∃ name, k.nodeName? (some node) = some name ∧
      (∃ member ∈ hyperarc.members, l.nodeName? (some member) = some name) ∧
      ∃ member ∈ other.members, r.nodeName? (some member) = some name := by
  obtain ⟨name, hshared, hfind⟩ := List.mem_filterMap.1 (mem_distinctMembers.1 h)
  obtain ⟨hl, hr⟩ := List.mem_filter.1 hshared
  obtain ⟨a, ha, hname⟩ := hk.exists_of_find? hfind
  refine ⟨name, ?_, List.mem_filterMap.1 hl, List.mem_map.1 (List.contains_iff_mem.1 hr)⟩
  rw [← hname]
  exact congrArg (Option.map fun node : Node => node.name) ha

/-- Only a live node bears a name. -/
theorem hasNode_of_nodeName? {node : NodeKey} {name : Name}
    (h : k.nodeName? (some node) = some name) : k.hasNode node = true := by
  obtain ⟨a, ha, -⟩ := Option.map_eq_some_iff.1 h
  exact Graph.hasNode_iff.2 ⟨a, ha⟩

/-- A shared arc is attached to nodes of the context. -/
theorem ends_alive_of_sharedArc (hk : Graph.Indexed k.nodes) {arc shared : Arc}
    (h : sharedArc l r k arc = some shared) : ∀ node ∈ shared.ends, k.hasNode node = true := by
  obtain ⟨other, -, rfl⟩ := Option.map_eq_some_iff.1 h
  intro node hnode
  rcases Arc.mem_ends.1 hnode with hend | hend
  · obtain ⟨name, hname, -⟩ := sharedEnd_eq_some hk hend
    exact hasNode_of_nodeName? hname
  · obtain ⟨name, hname, -⟩ := sharedEnd_eq_some hk hend
    exact hasNode_of_nodeName? hname

/-- A shared hyperarc has nodes of the context as members. -/
theorem members_alive_of_sharedHyperArc (hk : Graph.Indexed k.nodes) {hyperarc shared : HyperArc}
    (h : sharedHyperArc l r k hyperarc = some shared) :
    ∀ node ∈ shared.members, k.hasNode node = true := by
  obtain ⟨other, -, rfl⟩ := Option.map_eq_some_iff.1 h
  intro node hnode
  obtain ⟨name, hname, -⟩ := exists_of_mem_sharedMembers hk hnode
  exact hasNode_of_nodeName? hname

/-- One arc is put in if it is shared, and never refused. -/
theorem shareArc_eq_ok (hk : Graph.Indexed k.nodes) (arc : Arc) :
    shareArc l r k arc = .ok ((sharedArc l r k arc).elim k fun a =>
      { k with arcs := (k.arcs.pushUnique a).2 }) := by
  cases hshared : sharedArc l r k arc with
  | none =>
    unfold shareArc
    rw [Option.map_eq_none_iff.1 hshared]
    rfl
  | some shared =>
    have halive := ends_alive_of_sharedArc hk hshared
    obtain ⟨other, hother, rfl⟩ := Option.map_eq_some_iff.1 hshared
    unfold shareArc
    rw [hother]
    dsimp only
    rw [Graph.addArcUnique_eq_ok halive]
    rfl

/-- One hyperarc is put in if it is shared, and never refused. -/
theorem shareHyperArc_eq_ok (hk : Graph.Indexed k.nodes) (hyperarc : HyperArc) :
    shareHyperArc l r k hyperarc = .ok ((sharedHyperArc l r k hyperarc).elim k fun a =>
      { k with hyperarcs := (k.hyperarcs.pushUnique a).2 }) := by
  cases hshared : sharedHyperArc l r k hyperarc with
  | none =>
    unfold shareHyperArc
    rw [Option.map_eq_none_iff.1 hshared]
    rfl
  | some shared =>
    have halive := members_alive_of_sharedHyperArc hk hshared
    obtain ⟨other, hother, rfl⟩ := Option.map_eq_some_iff.1 hshared
    unfold shareHyperArc
    unfold sharedMembers at halive
    rw [hother]
    dsimp only
    rw [Graph.addHyperArcUnique_eq_ok halive]
    rfl

/-- **A derived context is what L and R share.** The loops over arcs and hyperarcs add no nodes,
so each element is shared with respect to the same nodes as in the end, and nothing that is added
is refused, as what it refers to is alive. -/
theorem derive_eq (l r : Graph) : derive l r = .ok (shared l r) := by
  have hnodes : l.nodes.elements.foldl (shareNode r) .empty = sharedNodes l r :=
    foldl_shareNode _ _
  have hindexed : Graph.Indexed (sharedNodes l r).nodes :=
    (Registry.compact_indexed_ofElements _).2.1
  -- the nodes stay what they are, so what is shared does not depend on what came before
  have harc : ∀ (k : Graph) (arc : Arc), k.nodes = (sharedNodes l r).nodes →
      shareArc l r k arc = .ok ((sharedArc l r (sharedNodes l r) arc).elim k fun a =>
        { k with arcs := (k.arcs.pushUnique a).2 }) := by
    intro k arc hk
    have hsame : sharedArc l r k arc = sharedArc l r (sharedNodes l r) arc := by
      simp only [sharedArc, sharedEnd, hk]
    rw [shareArc_eq_ok (hk ▸ hindexed), hsame]
  have hhyperarc : ∀ (k : Graph) (hyperarc : HyperArc), k.nodes = (sharedNodes l r).nodes →
      shareHyperArc l r k hyperarc
        = .ok ((sharedHyperArc l r (sharedNodes l r) hyperarc).elim k fun a =>
          { k with hyperarcs := (k.hyperarcs.pushUnique a).2 }) := by
    intro k hyperarc hk
    have hsame : sharedHyperArc l r k hyperarc = sharedHyperArc l r (sharedNodes l r) hyperarc := by
      simp only [sharedHyperArc, hk]
    rw [shareHyperArc_eq_ok (hk ▸ hindexed), hsame]
  have harcs := foldlM_eq_ok (P := fun k => k.nodes = (sharedNodes l r).nodes)
    l.arcs.elements (fun k arc _ hk => ⟨harc k arc hk, by
      cases sharedArc l r (sharedNodes l r) arc <;> exact hk⟩) rfl
  have hhyperarcs := fun (k : Graph) (hk : k.nodes = (sharedNodes l r).nodes) =>
    foldlM_eq_ok (P := fun k => k.nodes = (sharedNodes l r).nodes) (b := k)
      l.hyperarcs.elements (fun k hyperarc _ hk => ⟨hhyperarc k hyperarc hk, by
        cases sharedHyperArc l r (sharedNodes l r) hyperarc <;> exact hk⟩) hk
  unfold derive
  dsimp only
  rw [hnodes, bind_of_eq_ok harcs, ← foldl_filterMap_elim, Graph.foldl_pushArc]
  rw [hhyperarcs _ (by rfl), ← foldl_filterMap_elim, Graph.foldl_pushHyperArc]
  rfl

/-! ## It fits

Each element of the context was made of an element of L and one of R with its name. So it is
found on both sides by that name, and what was kept of its ends and members agrees with both. -/

/-- What is derived has no gaps, since it is built by additions. -/
theorem compact_shared (l r : Graph) : (shared l r).Compact where
  nodes := (Registry.compact_indexed_ofElements _).1
  arcs := (Registry.compact_indexed_ofElements _).1
  hyperarcs := (Registry.compact_indexed_ofElements _).1

/-- The elements of a side are found by their names. -/
theorem getNamed?_nameOf {κ : Kind} {α : Type} [Attributed α] {registry : Registry κ α}
    (h : Graph.Indexed registry) {a : α} (ha : a ∈ registry.elements) :
    registry.getNamed? (nameOf a) = some a := by
  obtain ⟨key, hkey⟩ := Registry.mem_elements_iff.1 ha
  rw [Registry.getNamed?, h.find?_eq_some hkey]
  exact hkey

/-- Its nodes are the shared ones. -/
theorem nodes_shared (hl : Graph.Indexed l.nodes) :
    (shared l r).nodes.elements = l.nodes.elements.filterMap (sharedNode r) := by
  refine Registry.elements_ofElements (nodup_names_filterMap ?_ hl.nodup_names_elements)
  intro node shared hshared
  obtain ⟨other, -, rfl⟩ := Option.map_eq_some_iff.1 hshared
  rfl

/-- Its arcs are the shared ones. No name is changed on the way, as the names of L are distinct.
-/
theorem arcs_shared (hl : Graph.Indexed l.arcs) :
    (shared l r).arcs.elements
      = l.arcs.elements.filterMap (sharedArc l r (sharedNodes l r)) := by
  refine Registry.elements_ofElements (nodup_names_filterMap ?_ hl.nodup_names_elements)
  intro arc shared hshared
  obtain ⟨other, -, rfl⟩ := Option.map_eq_some_iff.1 hshared
  rfl

/-- Its hyperarcs are the shared ones. -/
theorem hyperarcs_shared (hl : Graph.Indexed l.hyperarcs) :
    (shared l r).hyperarcs.elements
      = l.hyperarcs.elements.filterMap (sharedHyperArc l r (sharedNodes l r)) := by
  refine Registry.elements_ofElements (nodup_names_filterMap ?_ hl.nodup_names_elements)
  intro hyperarc shared hshared
  obtain ⟨other, -, rfl⟩ := Option.map_eq_some_iff.1 hshared
  rfl

/-- It is well formed. -/
theorem wellFormed_shared (l r : Graph) : (shared l r).WellFormed := by
  have hindexed : Graph.Indexed (sharedNodes l r).nodes :=
    (Registry.compact_indexed_ofElements _).2.1
  have hnodes : (sharedNodes l r).WellFormed :=
    Graph.WellFormed.empty.withNodes hindexed fun key hkey => absurd hkey Bool.false_ne_true
  have harcs := hnodes.pushArcs (l.arcs.elements.filterMap (sharedArc l r (sharedNodes l r)))
    fun arc harc => by
      obtain ⟨given, -, hshared⟩ := List.mem_filterMap.1 harc
      exact ends_alive_of_sharedArc hindexed hshared
  refine harcs.pushHyperArcs _ fun hyperarc hhyperarc => ?_
  obtain ⟨given, -, hshared⟩ := List.mem_filterMap.1 hhyperarc
  refine ⟨members_alive_of_sharedHyperArc hindexed hshared, ?_⟩
  obtain ⟨other, -, rfl⟩ := Option.map_eq_some_iff.1 hshared
  exact nodup_distinctMembers _

/-- What is made of the elements of one side that the other side names too has their names, in
the order in which they stand on the one side. -/
theorem names_of_shared {κ : Kind} {α : Type} [Attributed α] {l k r : Registry κ α}
    (hr : Graph.Indexed r) {share : α → α → α}
    (helements : k.elements
      = l.elements.filterMap fun a => (r.getNamed? (nameOf a)).map (share a))
    (hname : ∀ a other, nameOf (share a other) = nameOf a) :
    k.elements.map nameOf = (l.elements.map nameOf).filter r.names.contains := by
  rw [helements, List.map_filterMap, ← List.filterMap_eq_filter, List.filterMap_map]
  refine List.filterMap_congr fun a _ => ?_
  have hgiven := hr.isSome_getNamed? (nameOf a)
  rw [Function.comp_apply, Option.guard, ← hgiven]
  cases r.getNamed? (nameOf a) with
  | none => rfl
  | some other => exact congrArg some (hname a other)

/-- The elements that L and R share are those of L whose names R has as well, in their order. -/
theorem names_shared (hl : l.Linked) (hr : r.Linked) :
    (shared l r).nodes.elements.map nameOf
        = (l.nodes.elements.map nameOf).filter r.nodes.names.contains ∧
      (shared l r).arcs.elements.map nameOf
        = (l.arcs.elements.map nameOf).filter r.arcs.names.contains ∧
      (shared l r).hyperarcs.elements.map nameOf
        = (l.hyperarcs.elements.map nameOf).filter r.hyperarcs.names.contains :=
  ⟨names_of_shared hr.nodes_indexed (nodes_shared hl.nodes_indexed) fun _ _ => rfl,
    names_of_shared hr.arcs_indexed (arcs_shared hl.arcs_indexed) fun _ _ => rfl,
    names_of_shared hr.hyperarcs_indexed (hyperarcs_shared hl.hyperarcs_indexed) fun _ _ => rfl⟩

/-- Nothing that both sides name is missing then. -/
theorem contains_of_names {κ : Kind} {α : Type} [Attributed α] {l k r : Registry κ α}
    (hl : Graph.Indexed l) (hk : Graph.Indexed k)
    (hnames : k.elements.map nameOf = (l.elements.map nameOf).filter r.names.contains) {name : Name}
    (hleft : l.names.contains name = true) (hright : r.names.contains name = true) :
    k.names.contains name = true := by
  have hmem : name ∈ k.elements.map nameOf := by
    rw [hnames]
    exact List.mem_filter.2 ⟨List.mem_map.2 (hl.contains_iff.1 hleft), hright⟩
  exact hk.contains_iff.2 (List.mem_map.1 hmem)

/-- **What L and R share fits both of them.** An element of the context is found on both sides by
its name, for L since its index tells the truth and for R since that is how it was found when it
was shared. -/
theorem fits_shared (hnodes : Graph.Indexed l.nodes) (harcs : Graph.Indexed l.arcs)
    (hhyperarcs : Graph.Indexed l.hyperarcs) : Fits (shared l r) l ∧ Fits (shared l r) r := by
  have hindexed : Graph.Indexed (shared l r).nodes := (Registry.compact_indexed_ofElements _).2.1
  have hnode : ∀ node ∈ (shared l r).nodes.elements,
      (∃ key, l.nodes.find? node.name = some key) ∧ ∃ key, r.nodes.find? node.name = some key := by
    intro node hnode
    rw [nodes_shared hnodes] at hnode
    obtain ⟨given, hgiven, hshared⟩ := List.mem_filterMap.1 hnode
    obtain ⟨other, hother, rfl⟩ := Option.map_eq_some_iff.1 hshared
    obtain ⟨key, hkey⟩ := Registry.mem_elements_iff.1 hgiven
    have hfind := hnodes.find?_eq_some hkey
    obtain ⟨otherKey, hfind', -⟩ := Option.bind_eq_some_iff.1 hother
    exact ⟨⟨key, hfind⟩, ⟨otherKey, hfind'⟩⟩
  have harc : ∀ arc ∈ (shared l r).arcs.elements,
      ArcFits (shared l r) arc l ∧ ArcFits (shared l r) arc r := by
    intro arc harc
    rw [arcs_shared harcs] at harc
    obtain ⟨given, hgiven, hshared⟩ := List.mem_filterMap.1 harc
    obtain ⟨other, hother, rfl⟩ := Option.map_eq_some_iff.1 hshared
    refine ⟨⟨given, getNamed?_nameOf harcs hgiven, fun e node hend => ?_⟩,
      ⟨other, hother, fun e node hend => ?_⟩⟩
    all_goals
      -- an end of the context was shared, so it has one name in the context and on both sides
      have hshared : sharedEnd l r (sharedNodes l r) given other e = some node := by
        cases e <;> exact hend
      obtain ⟨name, hname, hl, hr⟩ := sharedEnd_eq_some (k := sharedNodes l r) hindexed hshared
    · exact hname.trans hl.symm
    · exact hname.trans hr.symm
  have hhyperarc : ∀ hyperarc ∈ (shared l r).hyperarcs.elements,
      HyperArcFits (shared l r) hyperarc l ∧ HyperArcFits (shared l r) hyperarc r := by
    intro hyperarc hhyperarc
    rw [hyperarcs_shared hhyperarcs] at hhyperarc
    obtain ⟨given, hgiven, hshared⟩ := List.mem_filterMap.1 hhyperarc
    obtain ⟨other, hother, rfl⟩ := Option.map_eq_some_iff.1 hshared
    refine ⟨⟨given, getNamed?_nameOf hhyperarcs hgiven, fun node hmember => ?_⟩,
      ⟨other, hother, fun node hmember => ?_⟩⟩
    all_goals
      obtain ⟨name, hname, ⟨member, hl, hlname⟩, ⟨member', hr, hrname⟩⟩ :=
        exists_of_mem_sharedMembers (k := sharedNodes l r) hindexed hmember
    · exact ⟨member, hl, hlname.trans hname.symm⟩
    · exact ⟨member', hr, hrname.trans hname.symm⟩
  exact ⟨⟨fun a ha => (hnode a ha).1, fun a ha => (harc a ha).1, fun a ha => (hhyperarc a ha).1⟩,
    ⟨fun a ha => (hnode a ha).2, fun a ha => (harc a ha).2, fun a ha => (hhyperarc a ha).2⟩⟩

/-- A graph shares nothing with the one without elements. -/
theorem derive_empty (l : Graph) : derive l .empty = .ok .empty := by
  have hnodes : l.nodes.elements.filterMap (sharedNode .empty) = [] :=
    List.filterMap_eq_nil_iff.2 fun _ _ => rfl
  have harcs : ∀ k, l.arcs.elements.filterMap (sharedArc l .empty k) = [] :=
    fun _ => List.filterMap_eq_nil_iff.2 fun _ _ => rfl
  have hhyperarcs : ∀ k, l.hyperarcs.elements.filterMap (sharedHyperArc l .empty k) = [] :=
    fun _ => List.filterMap_eq_nil_iff.2 fun _ _ => rfl
  rw [derive_eq, shared, harcs, hhyperarcs, sharedNodes, hnodes]
  rfl

end Context

end GraphGrammar
