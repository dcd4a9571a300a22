import GraphGrammar.Proofs.WellFormed
import GraphGrammar.Recognition.Adjacency

/-!
# What the adjacency tables hold

The tables are filled in one pass over arcs and hyperarcs. What they hold in
the end is read off the arcs and hyperarcs themselves: `degree_build` counts
ends and memberships, `incident_build` lists the arcs at a node in their
order, `mem_neighbors_build` says that neighbours are the nodes joined by an
arc, and `nodup_neighbors_build` that each of them is listed once.

Each table is followed through one entry at a time; entries for other nodes do
not matter.

The tables are an index for the search and not a part of the graph. Because of the theorems at
the end of this module, nothing else in the project speaks of how they are filled.
-/

namespace GraphGrammar

/-- An arc touches the nodes at its ends. -/
theorem Arc.touches_iff {arc : Arc} {node : NodeKey} :
    arc.touches node = true ↔ node ∈ arc.ends := by
  rw [Arc.mem_ends, Arc.touches, Bool.or_eq_true, beq_iff_eq, beq_iff_eq]

/-- The ends of an arc are at two nodes, in either order. -/
def Arc.Joins (arc : Arc) (a b : NodeKey) : Prop :=
  (arc.source = some a ∧ arc.target = some b) ∨ (arc.source = some b ∧ arc.target = some a)

/-- Two nodes are joined in either order. -/
theorem Arc.Joins.symm {arc : Arc} {a b : NodeKey} (h : arc.Joins a b) : arc.Joins b a :=
  Or.symm h

namespace Adjacency

/-- The three tables have one place for each slot. -/
structure Sized (slots : Nat) (t : Adjacency) : Prop where
  degrees : t.degrees.length = slots
  incidences : t.incidences.length = slots
  neighborhoods : t.neighborhoods.length = slots

variable {slots : Nat} {t : Adjacency} {n : NodeKey}

/-- A place of a table after a change of one place. -/
theorem getD_modify {α : Type} {table : List α} {i j : Nat} (hj : j < table.length) (f : α → α)
    (fallback : α) :
    (table.modify i f)[j]?.getD fallback
      = if i = j then f (table[j]?.getD fallback) else table[j]?.getD fallback := by
  rw [List.getElem?_modify, List.getElem?_eq_getElem hj]
  split <;> rfl

/-- Changes of one place that agree on what is there. -/
theorem modify_congr {α : Type} {table : List α} {i : Nat} {f g : α → α}
    (h : ∀ a, table[i]? = some a → f a = g a) : table.modify i f = table.modify i g := by
  refine List.ext_getElem? fun j => ?_
  rw [List.getElem?_modify, List.getElem?_modify]
  cases hj : table[j]? with
  | none => rfl
  | some a =>
    by_cases hij : i = j
    · subst hij
      simp [h a hj]
    · simp [hij]

/-! ## One entry

Three changes fill the tables: a degree is raised, an arc is listed, a neighbour is added. Each
of them changes one place of one table, and what it leaves there is said for a node `n` that need
not be the node it is made at. -/

/-- Blank tables have a place for each slot. -/
theorem Sized.blank : Sized slots (blank slots) :=
  ⟨List.length_replicate, List.length_replicate, List.length_replicate⟩

/-- Raising a degree keeps the sizes. -/
theorem Sized.countAt (h : Sized slots t) (m : NodeKey) : Sized slots (t.countAt m) :=
  ⟨(List.length_modify ..).trans h.degrees, h.incidences, h.neighborhoods⟩

/-- Listing an arc keeps the sizes. -/
theorem Sized.listAt (h : Sized slots t) (key : ArcKey) (m : NodeKey) :
    Sized slots (t.listAt key m) :=
  ⟨h.degrees, (List.length_modify ..).trans h.incidences, h.neighborhoods⟩

/-- Adding a neighbour keeps the sizes. -/
theorem Sized.addNeighbor (h : Sized slots t) (a b : NodeKey) : Sized slots (t.addNeighbor a b) :=
  ⟨h.degrees, h.incidences, (List.length_modify ..).trans h.neighborhoods⟩

/-- Raising degrees one after another keeps the sizes. -/
theorem Sized.countAll (h : Sized slots t) (nodes : List NodeKey) :
    Sized slots (nodes.foldl Adjacency.countAt t) :=
  List.foldlRecOn nodes _ h fun _ h m _ => h.countAt m

/-- Listing an arc at several nodes keeps the sizes. -/
theorem Sized.listAll (h : Sized slots t) (key : ArcKey) (nodes : List NodeKey) :
    Sized slots (nodes.foldl (Adjacency.listAt key) t) :=
  List.foldlRecOn nodes _ h fun _ h m _ => h.listAt key m

/-- Entering the ends of an arc keeps the sizes. -/
theorem Sized.addEnds (h : Sized slots t) (key : ArcKey) (arc : Arc) :
    Sized slots (t.addEnds key arc) :=
  (h.countAll arc.ends).listAll key (distinctMembers arc.ends)

/-- Entering an arc keeps the sizes. -/
theorem Sized.addArc (h : Sized slots t) (entry : ArcKey × Arc) : Sized slots (t.addArc entry) := by
  have hends := h.addEnds entry.1 entry.2
  unfold Adjacency.addArc
  dsimp only
  split
  · exact (hends.addNeighbor _ _).addNeighbor _ _
  · exact hends

/-- Entering all arcs keeps the sizes. -/
theorem Sized.addArcs (h : Sized slots t) (arcs : List (ArcKey × Arc)) :
    Sized slots (arcs.foldl Adjacency.addArc t) :=
  List.foldlRecOn arcs _ h fun _ h entry _ => h.addArc entry

/-- **No table is built longer or shorter than was asked for.** -/
theorem Sized.build (slots : Nat) (arcs : List (ArcKey × Arc)) (hyperarcs : List HyperArc) :
    Sized slots (build slots arcs hyperarcs) :=
  List.foldlRecOn hyperarcs _ (Sized.blank.addArcs arcs) fun _ h hyperarc _ =>
    h.countAll hyperarc.members

/-- Tables have nothing to say about slots that they do not have. -/
theorem Sized.of_le (h : Sized slots t) (hn : slots ≤ n.index) :
    t.degree n = 0 ∧ t.incident n = [] ∧ t.neighbors n = [] := by
  unfold degree incident neighbors
  rw [List.getElem?_eq_none (h.degrees ▸ hn), List.getElem?_eq_none (h.incidences ▸ hn),
    List.getElem?_eq_none (h.neighborhoods ▸ hn)]
  exact ⟨rfl, rfl, rfl⟩

/-- A degree is raised at its own node only. -/
theorem degree_countAt (h : Sized slots t) (hn : n.index < slots) (m : NodeKey) :
    (t.countAt m).degree n = t.degree n + if m = n then 1 else 0 := by
  unfold degree Adjacency.countAt
  rw [getD_modify (h.degrees ▸ hn)]
  by_cases hm : m = n
  · rw [if_pos hm, if_pos (congrArg Key.index hm)]
  · rw [if_neg hm, if_neg (Key.index_ne hm), Nat.add_zero]

/-- An arc is listed at the end, at its own node only. -/
theorem incident_listAt (h : Sized slots t) (hn : n.index < slots) (key : ArcKey) (m : NodeKey) :
    (t.listAt key m).incident n = t.incident n ++ if m = n then [key] else [] := by
  unfold incident Adjacency.listAt
  rw [getD_modify (h.incidences ▸ hn)]
  by_cases hm : m = n
  · rw [if_pos hm, if_pos (congrArg Key.index hm)]
  · rw [if_neg hm, if_neg (Key.index_ne hm), List.append_nil]

/-- A neighbour is added at the end, unless it is there already. -/
theorem neighbors_addNeighbor (h : Sized slots t) (hn : n.index < slots) (a b : NodeKey) :
    (t.addNeighbor a b).neighbors n
      = if a = n ∧ b ∉ t.neighbors n then t.neighbors n ++ [b] else t.neighbors n := by
  unfold neighbors Adjacency.addNeighbor
  rw [getD_modify (h.neighborhoods ▸ hn)]
  by_cases ha : a = n
  · rw [if_pos (congrArg Key.index ha)]
    by_cases hb : b ∈ t.neighborhoods[n.index]?.getD []
    · rw [if_pos (List.contains_iff_mem.2 hb), if_neg fun h => h.2 hb]
    · rw [if_neg fun h => hb (List.contains_iff_mem.1 h), if_pos ⟨ha, hb⟩]
  · rw [if_neg (Key.index_ne ha), if_neg fun h => ha h.1]

/-- As a set, the neighbours become one more. -/
theorem mem_neighbors_addNeighbor (h : Sized slots t) (hn : n.index < slots) {a b m : NodeKey} :
    m ∈ (t.addNeighbor a b).neighbors n ↔ m ∈ t.neighbors n ∨ (a = n ∧ b = m) := by
  rw [neighbors_addNeighbor h hn]
  split
  · rename_i hnew
    rw [List.mem_append, List.mem_singleton]
    exact or_congr_right ⟨fun heq => ⟨hnew.1, heq.symm⟩, fun heq => heq.2.symm⟩
  · rename_i hold
    refine ⟨.inl, fun hm => hm.elim id fun heq => ?_⟩
    exact by_contra fun hmem => hold ⟨heq.1, heq.2.symm ▸ hmem⟩

/-- No neighbour is listed twice, since it is looked for first. -/
theorem nodup_neighbors_addNeighbor (h : Sized slots t) (hn : n.index < slots) {a b : NodeKey}
    (hnodup : (t.neighbors n).Nodup) : ((t.addNeighbor a b).neighbors n).Nodup := by
  rw [neighbors_addNeighbor h hn]
  split
  · rename_i hnew
    exact List.nodup_append.2 ⟨hnodup, List.nodup_singleton _, fun c hc d hd heq =>
      hnew.2 (List.mem_singleton.1 hd ▸ heq ▸ hc)⟩
  · exact hnodup

/-! ## One arc, one hyperarc

An arc that is a loop has two ends at one node. It counts twice in the degree and is listed once,
which is why ends are counted and nodes are listed without repeats. -/

/-- Counting a list of nodes raises the degree of each by the times it is listed, and does
nothing else. -/
theorem foldl_countAt (h : Sized slots t) (hn : n.index < slots) (nodes : List NodeKey) :
    (nodes.foldl Adjacency.countAt t).degree n = t.degree n + nodes.count n
      ∧ (nodes.foldl Adjacency.countAt t).incident n = t.incident n
      ∧ (nodes.foldl Adjacency.countAt t).neighbors n = t.neighbors n := by
  induction nodes generalizing t with
  | nil => exact ⟨rfl, rfl, rfl⟩
  | cons m rest ih =>
    obtain ⟨hdegree, hincident, hneighbors⟩ := ih (h.countAt m)
    refine ⟨?_, hincident, hneighbors⟩
    rw [List.foldl_cons, hdegree, degree_countAt h hn, List.count_cons, Nat.add_assoc,
      Nat.add_comm (rest.count n)]
    by_cases hm : m = n
    · rw [if_pos hm, if_pos (beq_iff_eq.2 hm)]
    · rw [if_neg hm, if_neg fun heq => hm (beq_iff_eq.1 heq)]

/-- Listing an arc at different nodes adds it once at each of them, and does nothing else. -/
theorem foldl_listAt (h : Sized slots t) (hn : n.index < slots) (key : ArcKey)
    {nodes : List NodeKey} (hnodup : nodes.Nodup) :
    (nodes.foldl (Adjacency.listAt key) t).degree n = t.degree n
      ∧ (nodes.foldl (Adjacency.listAt key) t).incident n
        = t.incident n ++ (if n ∈ nodes then [key] else [])
      ∧ (nodes.foldl (Adjacency.listAt key) t).neighbors n = t.neighbors n := by
  induction nodes generalizing t with
  | nil => exact ⟨rfl, (List.append_nil _).symm, rfl⟩
  | cons m rest ih =>
    rw [List.nodup_cons] at hnodup
    obtain ⟨hdegree, hincident, hneighbors⟩ := ih (h.listAt key m) hnodup.2
    refine ⟨hdegree, ?_, hneighbors⟩
    rw [List.foldl_cons, hincident, incident_listAt h hn, List.append_assoc]
    congr 1
    by_cases hm : m = n
    · rw [if_pos hm, if_neg (hm ▸ hnodup.1), if_pos (hm ▸ List.mem_cons_self)]
      rfl
    · have hiff : n ∈ m :: rest ↔ n ∈ rest := by
        rw [List.mem_cons]
        exact ⟨fun h => h.elim (fun heq => absurd heq.symm hm) id, .inr⟩
      rw [if_neg hm, List.nil_append]
      simp only [hiff]

/-- An arc is counted at each end, and listed once at each node that it has an end at. -/
theorem addEnds_at (h : Sized slots t) (hn : n.index < slots) (key : ArcKey) (arc : Arc) :
    (t.addEnds key arc).degree n = t.degree n + arc.ends.count n
      ∧ (t.addEnds key arc).incident n = t.incident n ++ (if n ∈ arc.ends then [key] else [])
      ∧ (t.addEnds key arc).neighbors n = t.neighbors n := by
  obtain ⟨hdegree, hincident, hneighbors⟩ := foldl_countAt h hn arc.ends
  obtain ⟨hdegree', hincident', hneighbors'⟩ :=
    foldl_listAt (h.countAll arc.ends) hn key (nodup_distinctMembers arc.ends)
  simp only [mem_distinctMembers] at hincident'
  exact ⟨hdegree'.trans hdegree, hincident'.trans (by rw [hincident]),
    hneighbors'.trans hneighbors⟩

/-- What entering an arc adds at a node. -/
structure EntersArc (t after : Adjacency) (n : NodeKey) (key : ArcKey) (arc : Arc) : Prop where
  degree : after.degree n = t.degree n + arc.ends.count n
  incident : after.incident n = t.incident n ++ if n ∈ arc.ends then [key] else []
  mem_neighbors : ∀ m, m ∈ after.neighbors n ↔ m ∈ t.neighbors n ∨ arc.Joins n m
  nodup : (t.neighbors n).Nodup → (after.neighbors n).Nodup

/-- Entering an arc adds what `EntersArc` says at each node. An arc between two nodes makes each
a neighbour of the other, and a loop makes its node its own. An arc that dangles is counted and
listed but makes no neighbours. -/
theorem addArc_enters (h : Sized slots t) (hn : n.index < slots) (key : ArcKey) (arc : Arc) :
    EntersArc t (t.addArc (key, arc)) n key arc := by
  have hends := h.addEnds key arc
  obtain ⟨hdegree, hincident, hneighbors⟩ := addEnds_at h hn key arc
  unfold addArc
  dsimp only
  split
  · rename_i s u hs ht
    have hneighbor := hends.addNeighbor s u
    constructor
    · exact hdegree
    · exact hincident
    · intro m
      rw [mem_neighbors_addNeighbor hneighbor hn, mem_neighbors_addNeighbor hends hn, hneighbors,
        or_assoc, Arc.Joins, hs, ht]
      refine or_congr_right (or_congr ?_ ?_)
      · exact ⟨fun h => ⟨congrArg some h.1, congrArg some h.2⟩,
          fun h => ⟨Option.some.inj h.1, Option.some.inj h.2⟩⟩
      · exact ⟨fun h => ⟨congrArg some h.2, congrArg some h.1⟩,
          fun h => ⟨Option.some.inj h.2, Option.some.inj h.1⟩⟩
    · intro hnodup
      refine nodup_neighbors_addNeighbor hneighbor hn (nodup_neighbors_addNeighbor hends hn ?_)
      rw [hneighbors]
      exact hnodup
  · -- an arc that dangles joins no nodes
    rename_i hdangling
    constructor
    · exact hdegree
    · exact hincident
    · intro m
      rw [hneighbors]
      refine ⟨.inl, fun hm => hm.elim id fun hjoins => ?_⟩
      rcases hjoins with ⟨hs, ht⟩ | ⟨hs, ht⟩
      · exact absurd ht (hdangling n m hs)
      · exact absurd ht (hdangling m n hs)
    · intro hnodup
      rw [hneighbors]
      exact hnodup

/-! ## All of them

What one arc and one hyperarc add is summed up over the lists in which they stand, by induction
with the tables so far as the parameter. -/

/-- All arcs together, at one node. Degrees are added up, the lists are put one behind the other,
and neighbours are collected. The induction is on the arcs, with the tables so far as the
parameter. -/
theorem foldl_addArc (h : Sized slots t) (hn : n.index < slots) (arcs : List (ArcKey × Arc)) :
    (arcs.foldl addArc t).degree n = t.degree n + (arcs.flatMap (·.2.ends)).count n
      ∧ (arcs.foldl addArc t).incident n
        = t.incident n ++ (arcs.filter (·.2.touches n)).map Prod.fst
      ∧ (∀ m, m ∈ (arcs.foldl addArc t).neighbors n
        ↔ m ∈ t.neighbors n ∨ ∃ entry ∈ arcs, entry.2.Joins n m)
      ∧ ((t.neighbors n).Nodup → ((arcs.foldl addArc t).neighbors n).Nodup) := by
  induction arcs generalizing t with
  | nil =>
    exact ⟨rfl, (List.append_nil _).symm, fun m => ⟨.inl, fun h => h.elim id nofun⟩, id⟩
  | cons entry rest ih =>
    obtain ⟨key, arc⟩ := entry
    have henters := addArc_enters h hn key arc
    obtain ⟨hdegree, hincident, hneighbors, hnodup⟩ := ih (h.addArc (key, arc))
    refine ⟨?_, ?_, fun m => ?_, fun h => hnodup (henters.nodup h)⟩
    · rw [List.foldl_cons, hdegree, henters.degree, List.flatMap_cons, List.count_append,
        Nat.add_assoc]
    · rw [List.foldl_cons, hincident, henters.incident, List.append_assoc, List.filter_cons]
      congr 1
      by_cases htouch : n ∈ arc.ends
      · rw [if_pos htouch, if_pos (Arc.touches_iff.2 htouch)]
        rfl
      · rw [if_neg htouch, if_neg fun h => htouch (Arc.touches_iff.1 h), List.nil_append]
    · rw [List.foldl_cons, hneighbors, henters.mem_neighbors, or_assoc]
      refine or_congr_right ⟨fun hjoins => ?_, fun ⟨entry, hmem, hjoins⟩ => ?_⟩
      · rcases hjoins with hjoins | ⟨entry, hmem, hjoins⟩
        · exact ⟨(key, arc), List.mem_cons_self, hjoins⟩
        · exact ⟨entry, List.mem_cons_of_mem _ hmem, hjoins⟩
      · rcases List.mem_cons.1 hmem with rfl | hmem
        · exact .inl hjoins
        · exact .inr ⟨entry, hmem, hjoins⟩

/-- All hyperarcs together, at one node. They count in degrees only. -/
theorem foldl_addHyperArc (h : Sized slots t) (hn : n.index < slots) (hyperarcs : List HyperArc) :
    (hyperarcs.foldl addHyperArc t).degree n
        = t.degree n + (hyperarcs.flatMap HyperArc.members).count n
      ∧ (hyperarcs.foldl addHyperArc t).incident n = t.incident n
      ∧ (hyperarcs.foldl addHyperArc t).neighbors n = t.neighbors n := by
  induction hyperarcs generalizing t with
  | nil => exact ⟨rfl, rfl, rfl⟩
  | cons hyperarc rest ih =>
    obtain ⟨hdegree, hincident, hneighbors⟩ := foldl_countAt h hn hyperarc.members
    obtain ⟨hdegree', hincident', hneighbors'⟩ := ih (h.countAll hyperarc.members)
    refine ⟨?_, hincident'.trans hincident, hneighbors'.trans hneighbors⟩
    rw [List.foldl_cons, List.flatMap_cons, List.count_append, ← Nat.add_assoc, ← hdegree]
    exact hdegree'

/-- At the start there is nothing at a node. -/
theorem blank_at (hn : n.index < slots) :
    (blank slots).degree n = 0 ∧ (blank slots).incident n = [] ∧
      (blank slots).neighbors n = [] := by
  unfold degree incident neighbors blank
  simp only [List.getElem?_replicate, if_pos hn, Option.getD_some, and_self]

section Build

variable (hn : n.index < slots) (arcs : List (ArcKey × Arc)) (hyperarcs : List HyperArc)

include hn

/-- **The degree counts ends and memberships.** -/
theorem degree_build :
    (build slots arcs hyperarcs).degree n
      = (arcs.flatMap (·.2.ends)).count n + (hyperarcs.flatMap HyperArc.members).count n := by
  obtain ⟨hdegree, -⟩ := foldl_addArc Sized.blank hn arcs
  rw [build, (foldl_addHyperArc (Sized.blank.addArcs arcs) hn hyperarcs).1, hdegree,
    (blank_at hn).1, Nat.zero_add]

/-- **The arcs at a node are listed in their order**, each once. -/
theorem incident_build :
    (build slots arcs hyperarcs).incident n = (arcs.filter (·.2.touches n)).map Prod.fst := by
  obtain ⟨-, hincident, -⟩ := foldl_addArc Sized.blank hn arcs
  rw [build, (foldl_addHyperArc (Sized.blank.addArcs arcs) hn hyperarcs).2.1, hincident,
    (blank_at hn).2.1, List.nil_append]

/-- **Neighbours are the nodes that an arc joins with a node.** -/
theorem mem_neighbors_build {m : NodeKey} :
    m ∈ (build slots arcs hyperarcs).neighbors n ↔ ∃ entry ∈ arcs, entry.2.Joins n m := by
  obtain ⟨-, -, hneighbors, -⟩ := foldl_addArc Sized.blank hn arcs
  rw [build, (foldl_addHyperArc (Sized.blank.addArcs arcs) hn hyperarcs).2.2, hneighbors,
    (blank_at hn).2.2]
  exact ⟨fun h => h.elim nofun id, .inr⟩

/-- No neighbour is listed twice. -/
theorem nodup_neighbors_build : ((build slots arcs hyperarcs).neighbors n).Nodup := by
  obtain ⟨-, -, -, hnodup⟩ := foldl_addArc Sized.blank hn arcs
  rw [build, (foldl_addHyperArc (Sized.blank.addArcs arcs) hn hyperarcs).2.2]
  refine hnodup ?_
  rw [(blank_at hn).2.2]
  exact List.nodup_nil

end Build

/-! ## The tables of a graph

For a live node of a well-formed graph the tables agree with what the graph itself says of
degree, arcs and neighbours. -/

section OfGraph

variable {g : Graph}

/-- A hyperarc lists a member once, so memberships are counted by hyperarcs. -/
theorem count_members {hyperarcs : List HyperArc} (h : ∀ e ∈ hyperarcs, e.members.Nodup) :
    (hyperarcs.flatMap HyperArc.members).count n = hyperarcs.countP (·.contains n) := by
  induction hyperarcs with
  | nil => rfl
  | cons e rest ih =>
    rw [List.flatMap_cons, List.count_append, ih fun e' he' => h e' (List.mem_cons_of_mem _ he'),
      List.countP_cons, (h e List.mem_cons_self).count, Nat.add_comm]
    simp only [HyperArc.contains_iff]

/-- **The degree in the tables is the degree in the graph.** -/
theorem degree_ofGraph (hg : g.WellFormed) (hn : g.hasNode n = true) :
    (ofGraph g).degree n = g.degree n := by
  rw [ofGraph, degree_build (Registry.lt_of_contains hn), Graph.degree, count_members]
  · rw [Graph.hyperarcsOf, List.length_map, ← List.countP_eq_length_filter, Registry.elements,
      Registry.elements, List.flatMap_map, List.countP_map]
    rfl
  · intro e he
    obtain ⟨key, hkey⟩ := Registry.mem_elements_iff.1 he
    exact hg.members_distinct key e hkey

/-- **The arcs listed at a node are the arcs of the graph at it.** -/
theorem incident_ofGraph (hn : g.hasNode n = true) : (ofGraph g).incident n = g.incidentArcs n := by
  rw [ofGraph, incident_build (Registry.lt_of_contains hn), Graph.incidentArcs]

/-- **The neighbours in the tables are the nodes that an arc of the graph joins to the node.** -/
theorem mem_neighbors_ofGraph (hn : n.index < g.nodes.cells.length) {m : NodeKey} :
    m ∈ (ofGraph g).neighbors n ↔ ∃ key arc, g.arc? key = some arc ∧ arc.Joins n m := by
  rw [ofGraph, mem_neighbors_build hn]
  constructor
  · rintro ⟨⟨key, arc⟩, hmem, hjoins⟩
    exact ⟨key, arc, Registry.mem_entries_iff.1 hmem, hjoins⟩
  · rintro ⟨key, arc, harc, hjoins⟩
    exact ⟨(key, arc), Registry.mem_entries_iff.2 harc, hjoins⟩

end OfGraph

end Adjacency

end GraphGrammar
