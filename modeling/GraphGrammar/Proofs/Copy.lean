import GraphGrammar.Graph.Upkeep
import GraphGrammar.Proofs.Naming
import GraphGrammar.Proofs.WellFormed

/-!
# Copies are compact and well formed

Copying a graph renumbers its elements without gaps and drops whatever refers
to a node that is not alive. The copy is well formed whatever became of the
names of the graph, as long as no hyperarc lists a member twice
(`wellFormed_copy`), and no slot of it is empty (`compact_copy`). A graph that
is compact and well formed is its own copy (`copy_eq_self`), and so is one that
is well formed but for such members (`Linked.copy_eq_self`).

The copy is made of the elements in their order, so the key that an element gets is its rank
among the live elements of its kind, and this renumbering is all that copying does to a
well-formed graph. What it means for references is told in `GraphGrammar.Proofs.CopyMapping`, and
that no operation can tell a graph from its copy but by the keys in
`GraphGrammar.Proofs.Compaction`.

Rules hold their sides as copies. This is where `wellFormed_copy` and `copy_eq_self` are used
most: a side is compact by construction, and building a rule anew from its own sides does not
renumber them again.
-/

namespace GraphGrammar

open Attributed

/-- A key and a value that a list of pairs finds under it are a pair of the
list. -/
theorem mem_of_lookup {α β : Type} [BEq α] [LawfulBEq α] {key : α} {value : β} :
    ∀ {pairs : List (α × β)}, pairs.lookup key = some value → (key, value) ∈ pairs
  | [], h => nomatch h
  | (first, old) :: rest, h => by
    rw [List.lookup_cons] at h
    split at h
    · rename_i heq
      cases h
      rw [eq_of_beq heq]
      exact List.mem_cons_self
    · exact List.mem_cons_of_mem _ (mem_of_lookup h)

/-- What a pair of a list with distinct keys says is what the list finds. -/
theorem lookup_of_mem {α β : Type} [BEq α] [LawfulBEq α] {key : α} {value : β} :
    ∀ {pairs : List (α × β)}, (pairs.map Prod.fst).Nodup → (key, value) ∈ pairs →
      pairs.lookup key = some value
  | (first, old) :: rest, hnodup, hmem => by
    rw [List.map_cons, List.nodup_cons] at hnodup
    rw [List.lookup_cons]
    rcases List.mem_cons.1 hmem with heq | hmem
    · cases heq
      rw [beq_self_eq_true]
    · have hne : key ≠ first := fun heq =>
        hnodup.1 (List.mem_map.2 ⟨(key, value), hmem, heq⟩)
      rw [beq_false_of_ne hne]
      exact lookup_of_mem hnodup.2 hmem

/-! ## Registries

Two indexed registries are equal if their slots are, so a compact one is determined by the list
of its elements. Building it anew from them is building it again. -/

namespace Registry

variable {κ : Kind} {α : Type} [Attributed α]

/-- Two indexed registries with the same slots are the same. -/
theorem eq_of_cells_eq {r s : Registry κ α} (hr : Graph.Indexed r) (hs : Graph.Indexed s)
    (hcells : r.cells = s.cells) : r = s := by
  have hget : ∀ key, r.get? key = s.get? key := fun key => by rw [get?, get?, hcells]
  have hnames : r.names = s.names := NameMap.ext_find? fun name => Option.ext fun key => by
    refine (hr name key).trans ((hs name key).trans ?_).symm
    rw [hget key]
  obtain ⟨rcells, rnames⟩ := r
  cases hcells
  cases hnames
  rfl

/-- An element with a free name is put in under it. -/
theorem pushUnique_of_free {r : Registry κ α} {a : α}
    (hfree : r.names.contains (nameOf a) = false) : r.pushUnique a = r.push a := by
  rw [pushUnique, uniqueName_of_free hfree, renamed_nameOf]

/-- The induction goes over the elements still to be put in. What is known of those already there
is that their names are not among the names to come, and each step hands this on. -/
theorem cells_foldl_pushUnique :
    ∀ (elements : List α) (r : Registry κ α), (elements.map nameOf).Nodup →
      (∀ a ∈ elements, r.names.contains (nameOf a) = false) →
      (elements.foldl (fun r a => (r.pushUnique a).2) r).cells = r.cells ++ elements.map some
  | [], r, _, _ => (List.append_nil _).symm
  | a :: rest, r, hnodup, hfree => by
    rw [List.map_cons, List.nodup_cons] at hnodup
    have hpush : (r.pushUnique a).2
        = ⟨r.cells ++ [some a], r.names.insert (nameOf a) r.nextKey⟩ :=
      congrArg Prod.snd (pushUnique_of_free (hfree a List.mem_cons_self))
    rw [List.foldl_cons, cells_foldl_pushUnique rest _ hnodup.2, hpush, List.map_cons]
    · exact List.append_assoc ..
    · intro b hb
      have hne : nameOf b ≠ nameOf a := fun heq =>
        hnodup.1 (heq ▸ List.mem_map_of_mem hb)
      rw [hpush, NameMap.contains_eq_false_iff, NameMap.find?_insert, if_neg hne]
      exact NameMap.contains_eq_false_iff.1 (hfree b (List.mem_cons_of_mem _ hb))

/-- A registry made of elements with distinct names has them in their order. -/
theorem cells_ofElements {elements : List α} (hnodup : (elements.map nameOf).Nodup) :
    (ofElements elements : Registry κ α).cells = elements.map some := by
  rw [ofElements, cells_foldl_pushUnique _ _ hnodup fun _ _ => rfl]
  rfl

/-- An element of a list is found under its place in the list. With distinct names none of them
is numbered. -/
theorem get?_ofElements {elements : List α} (hnodup : (elements.map nameOf).Nodup)
    (key : Key κ) : (ofElements elements : Registry κ α).get? key = elements[key.index]? := by
  rw [get?, cells_ofElements hnodup, List.getElem?_map]
  cases elements[key.index]? <;> rfl

theorem elements_ofElements {elements : List α} (hnodup : (elements.map nameOf).Nodup) :
    (ofElements elements : Registry κ α).elements = elements := by
  refine (List.map_inj_right fun _ _ => Option.some.inj).1 ?_
  rw [← (compact_indexed_ofElements elements).1.cells_eq, cells_ofElements hnodup]

/-- Building a compact registry anew from changed elements changes them in place. -/
theorem ofElements_map_elements {r : Registry κ α} (hcompact : r.Compact)
    (hindexed : Graph.Indexed r) {f : α → α} (hf : ∀ a, nameOf (f a) = nameOf a) :
    ofElements (r.elements.map f) = r.mapElements f := by
  have hnames : (r.elements.map f).map nameOf = r.elements.map nameOf := by
    rw [List.map_map]
    exact List.map_congr_left fun a _ => hf a
  refine eq_of_cells_eq (compact_indexed_ofElements _).2.1 (hindexed.mapElements hf) ?_
  rw [cells_ofElements (hnames ▸ hindexed.nodup_names_elements), List.map_map]
  show _ = r.cells.map (·.map f)
  rw [hcompact.cells_eq, List.map_map]
  rfl

/-- Building a compact registry anew from its elements changes nothing. -/
theorem ofElements_elements {r : Registry κ α} (hcompact : r.Compact)
    (hindexed : Graph.Indexed r) : ofElements r.elements = r := by
  refine eq_of_cells_eq (compact_indexed_ofElements _).2.1 hindexed ?_
  rw [cells_ofElements hindexed.nodup_names_elements]
  exact hcompact.cells_eq.symm

end Registry

/-! ## Ends and members under a renumbering -/

/-- A renumbering that leaves the ends of an arc alone leaves the arc alone, whatever it does
elsewhere. -/
theorem Arc.mapEnds_eq_self {arc : Arc} {f : NodeKey → Option NodeKey}
    (h : ∀ node ∈ arc.ends, f node = some node) : arc.mapEnds f = arc := by
  have hend : ∀ e : Option NodeKey, (∀ node, e = some node → f node = some node) →
      e.bind f = e := by
    intro e he
    cases e with
    | none => rfl
    | some node => exact he node rfl
  unfold Arc.mapEnds
  rw [hend arc.source fun node hnode => h node (Arc.mem_ends.2 (.inl hnode)),
    hend arc.target fun node hnode => h node (Arc.mem_ends.2 (.inr hnode))]

theorem HyperArc.mapMembers_eq_self {hyperarc : HyperArc} {f : NodeKey → Option NodeKey}
    (h : ∀ node ∈ hyperarc.members, f node = some node) : hyperarc.mapMembers f = hyperarc := by
  have hmembers : hyperarc.members.filterMap f = hyperarc.members := by
    rw [List.filterMap_congr h, List.filterMap_some]
  unfold HyperArc.mapMembers
  rw [hmembers]

namespace Graph

/-- No slot is empty. -/
structure Compact (g : Graph) : Prop where
  nodes : g.nodes.Compact
  arcs : g.arcs.Compact
  hyperarcs : g.hyperarcs.Compact

/-- What a graph is like apart from members that are listed twice: its indices tell the
truth, and every end and member is alive. -/
structure Linked (g : Graph) : Prop where
  nodes_indexed : Indexed g.nodes
  arcs_indexed : Indexed g.arcs
  hyperarcs_indexed : Indexed g.hyperarcs
  ends_alive : ∀ key arc, g.arc? key = some arc → ∀ node ∈ arc.ends, g.hasNode node
  members_alive :
    ∀ key hyperarc, g.hyperarc? key = some hyperarc → ∀ node ∈ hyperarc.members, g.hasNode node

/-- Being linked is being well formed but for repeated members, and what holds of linked graphs
holds of well-formed ones. -/
theorem WellFormed.linked {g : Graph} (h : g.WellFormed) : g.Linked where
  nodes_indexed := h.nodes_indexed
  arcs_indexed := h.arcs_indexed
  hyperarcs_indexed := h.hyperarcs_indexed
  ends_alive := h.ends_alive
  members_alive := h.members_alive

/-- No hyperarc lists a member twice. -/
def MembersDistinct (g : Graph) : Prop :=
  ∀ key hyperarc, g.hyperarc? key = some hyperarc → hyperarc.members.Nodup

variable {g : Graph}

/-- Where there are no hyperarcs there is nothing to repeat. The graphs that witnesses are built
from are mostly of this sort. -/
theorem membersDistinct_of_no_hyperarcs (h : g.hyperarcs = .empty) : g.MembersDistinct := by
  intro key hyperarc hkey
  rw [hyperarc?, h, Registry.get?_empty] at hkey
  exact absurd hkey (by simp)

/-! ## The renumbering

A key is sent to its rank, the number of live keys below it. -/

/-- **A live node gets its rank among the live nodes**, and no other node gets a key. -/
theorem lookup_renumbering_iff {key rank : NodeKey} :
    g.renumbering.lookup key = some rank ↔ g.nodes.keys[rank.index]? = some key := by
  constructor
  · intro h
    obtain ⟨⟨_, i⟩, hmem, heq⟩ := List.mem_map.1 (mem_of_lookup h)
    cases heq
    exact List.mem_zipIdx_iff_getElem?.1 hmem
  · intro h
    have hnodup : (g.renumbering.map Prod.fst).Nodup := by
      rw [renumbering, List.map_map]
      show (g.nodes.keys.zipIdx.map Prod.fst).Nodup
      rw [List.zipIdx_map_fst]
      exact g.nodes.nodup_keys
    exact lookup_of_mem hnodup
      (List.mem_map.2 ⟨(key, rank.index), List.mem_zipIdx_iff_getElem?.2 h, rfl⟩)

/-- A live node gets a key. -/
theorem exists_renumbering {key : NodeKey} (h : g.hasNode key = true) :
    ∃ rank, g.renumbering.lookup key = some rank := by
  obtain ⟨place, hplace, rfl⟩ := List.getElem_of_mem (Registry.mem_keys_iff.2 h)
  exact ⟨⟨place⟩, lookup_renumbering_iff.2 (List.getElem?_eq_getElem hplace)⟩

/-- The ranks fill the numbers below the number of live nodes. -/
theorem renumbering_lt {key rank : NodeKey} (h : g.renumbering.lookup key = some rank) :
    rank.index < g.nodes.keys.length :=
  (List.getElem?_eq_some_iff.1 (lookup_renumbering_iff.1 h)).1

/-- Two nodes do not get one key. -/
theorem renumbering_injective {key other rank : NodeKey}
    (h : g.renumbering.lookup key = some rank) (h' : g.renumbering.lookup other = some rank) :
    key = other :=
  Option.some.inj ((lookup_renumbering_iff.1 h).symm.trans (lookup_renumbering_iff.1 h'))

/-- In a compact graph every node keeps its key. -/
theorem renumbering_of_compact (h : g.nodes.Compact) {key : NodeKey}
    (halive : g.hasNode key = true) :
    g.renumbering.lookup key = some key := by
  have hlt := h.contains_iff_lt.1 halive
  rw [lookup_renumbering_iff, h.keys_eq, List.getElem?_map, List.getElem?_range hlt]
  rfl

/-! ## The copy

What holds of any copy is separated from what needs the graph to be in order. -/

/-- **No slot of a copy is empty**, whatever the graph was like. -/
theorem compact_copy (g : Graph) : g.copy.Compact where
  nodes := (Registry.compact_indexed_ofElements _).1
  arcs := (Registry.compact_indexed_ofElements _).1
  hyperarcs := (Registry.compact_indexed_ofElements _).1

/-- Every rank is the key of a node of the copy. -/
theorem hasNode_copy {key : NodeKey} (h : key.index < g.nodes.keys.length) :
    g.copy.hasNode key = true := by
  refine g.compact_copy.nodes.contains_iff_lt.2 ?_
  have hlength : g.copy.nodes.cells.length = g.nodes.elements.length :=
    (Registry.compact_indexed_ofElements _).2.2
  rw [hlength, Registry.elements, List.length_map]
  rwa [Registry.keys, List.length_map] at h

/-- An element of a copy is one of the list it was made of, under some name. -/
theorem exists_mem_of_get?_ofElements {κ : Kind} {α : Type} [Attributed α] {elements : List α}
    {key : Key κ} {a : α} (h : (Registry.ofElements elements).get? key = some a) :
    ∃ b ∈ elements, ∃ name, a = renamed b name := by
  obtain ⟨b, name, hb, heq⟩ := Registry.exists_of_get?_ofElements h
  exact ⟨b, List.mem_of_getElem? hb, name, heq⟩

/-- Hyperarcs that list no member twice are those of a graph with distinct members. -/
theorem membersDistinct_ofElements {elements : List HyperArc}
    (hg : g.hyperarcs = .ofElements elements) (h : ∀ given ∈ elements, given.members.Nodup) :
    g.MembersDistinct := by
  intro key hyperarc hget
  have hget : g.hyperarcs.get? key = some hyperarc := hget
  rw [hg] at hget
  obtain ⟨given, hgiven, name, rfl⟩ := exists_mem_of_get?_ofElements hget
  exact h given hgiven

/-- Every end and member of a copy is alive, whatever the names and the references to nodes
of the graph. -/
theorem linked_copy (g : Graph) : g.copy.Linked where
  nodes_indexed := (Registry.compact_indexed_ofElements _).2.1
  arcs_indexed := (Registry.compact_indexed_ofElements _).2.1
  hyperarcs_indexed := (Registry.compact_indexed_ofElements _).2.1
  ends_alive key arc harc node hnode := by
    obtain ⟨given, hgiven, name, rfl⟩ := exists_mem_of_get?_ofElements harc
    obtain ⟨arc, _, rfl⟩ := List.mem_map.1 hgiven
    have hend : arc.source.bind (g.renumbering.lookup ·) = some node
        ∨ arc.target.bind (g.renumbering.lookup ·) = some node := Arc.mem_ends.1 hnode
    rcases hend with hend | hend
    · obtain ⟨old, _, hlookup⟩ := Option.bind_eq_some_iff.1 hend
      exact hasNode_copy (renumbering_lt hlookup)
    · obtain ⟨old, _, hlookup⟩ := Option.bind_eq_some_iff.1 hend
      exact hasNode_copy (renumbering_lt hlookup)
  members_alive key hyperarc hh node hnode := by
    obtain ⟨given, hgiven, name, rfl⟩ := exists_mem_of_get?_ofElements hh
    obtain ⟨hyperarc, _, rfl⟩ := List.mem_map.1 hgiven
    obtain ⟨old, _, hlookup⟩ := List.mem_filterMap.1
      (show node ∈ hyperarc.members.filterMap (g.renumbering.lookup ·) from hnode)
    exact hasNode_copy (renumbering_lt hlookup)

/-- **A copy is well formed** if no hyperarc lists a member twice. -/
theorem wellFormed_copy (h : g.MembersDistinct) : g.copy.WellFormed where
  nodes_indexed := g.linked_copy.nodes_indexed
  arcs_indexed := g.linked_copy.arcs_indexed
  hyperarcs_indexed := g.linked_copy.hyperarcs_indexed
  ends_alive := g.linked_copy.ends_alive
  members_alive := g.linked_copy.members_alive
  members_distinct key hyperarc hh := by
    obtain ⟨given, hgiven, name, rfl⟩ := exists_mem_of_get?_ofElements hh
    obtain ⟨hyperarc, hmem, rfl⟩ := List.mem_map.1 hgiven
    obtain ⟨old, hold⟩ := Registry.mem_elements_iff.1 hmem
    show (hyperarc.members.filterMap (g.renumbering.lookup ·)).Nodup
    exact (h old hyperarc hold).filterMap fun a b rank ha hb => renumbering_injective ha hb

/-- So is a graph that is its own copy. -/
theorem wellFormed_of_copy_eq (hcopy : g.copy = g) (h : g.MembersDistinct) : g.WellFormed :=
  hcopy ▸ wellFormed_copy h

/-- **A compact graph in which everything is alive is its own copy.** -/
theorem Linked.copy_eq_self (h : g.Linked) (hcompact : g.Compact) : g.copy = g := by
  have harcs : g.arcs.elements.map (·.mapEnds (g.renumbering.lookup ·)) = g.arcs.elements := by
    rw [List.map_congr_left (g := id) fun arc harc => ?_, List.map_id]
    obtain ⟨key, hkey⟩ := Registry.mem_elements_iff.1 harc
    exact Arc.mapEnds_eq_self fun node hnode =>
      renumbering_of_compact hcompact.nodes (h.ends_alive key arc hkey node hnode)
  have hhyperarcs : g.hyperarcs.elements.map (·.mapMembers (g.renumbering.lookup ·))
      = g.hyperarcs.elements := by
    rw [List.map_congr_left (g := id) fun hyperarc hh => ?_, List.map_id]
    obtain ⟨key, hkey⟩ := Registry.mem_elements_iff.1 hh
    exact HyperArc.mapMembers_eq_self fun node hnode =>
      renumbering_of_compact hcompact.nodes (h.members_alive key hyperarc hkey node hnode)
  unfold copy
  simp only [harcs, hhyperarcs, Registry.ofElements_elements hcompact.nodes h.nodes_indexed,
    Registry.ofElements_elements hcompact.arcs h.arcs_indexed,
    Registry.ofElements_elements hcompact.hyperarcs h.hyperarcs_indexed]

/-- A graph that is well formed and without gaps is not changed by copying it, so copying twice
is copying once. -/
theorem copy_eq_self (hcompact : g.Compact) (h : g.WellFormed) : g.copy = g :=
  h.linked.copy_eq_self hcompact

end Graph

end GraphGrammar
