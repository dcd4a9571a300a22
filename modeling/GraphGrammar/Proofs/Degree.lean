import GraphGrammar.Proofs.Match
import GraphGrammar.Proofs.Surroundings
import Mathlib.Algebra.Order.BigOperators.Group.List
import Mathlib.Algebra.Order.Group.Nat
import Mathlib.Data.List.Perm.Subperm

/-!
# What is at the image of a node

The search compares degrees and neighbours before it looks at arcs and
hyperarcs, which no match asks for by itself. Both tests are consequences of
what a match asks of the arcs and hyperarcs at a node: their images are
different and are at the image of the node, so they count for no less there
(`degree_le`), and an arc to a neighbour has an arc to the neighbour's image
as its own (`exists_neighbor`).

A loop counts twice at its node, in L and in the host, and a hyperarc once however it lists its
members. As the images of different elements are different, the counts in L can be compared with
those in the host element by element.
-/

namespace GraphGrammar

open Occurrence (ofRule)

variable {host : Graph} {rule : GrammarRule} {phase : Phase} {a b : Assignment}

/-! ## The tables of a search

Which arcs and hyperarcs of L count depends on the phase. While positive elements are assigned,
the negative ones must not be asked for; once they are looked for, all of L is. -/

/-- The tables of the host are those of a graph. -/
theorem surroundings_ofRule : (ofRule host rule).surroundings.toAdjacency = .ofGraph host :=
  Surroundings.toAdjacency_ofGraph host

/-- The tables of the pattern are made of the arcs and hyperarcs that a phase
covers. -/
theorem pattern_ofRule :
    (ofRule host rule).pattern phase = .build rule.l.nodes.cells.length
      (rule.l.arcs.entries.filter fun entry => phase.covers (rule.isNegativeArc entry.1))
      ((rule.l.hyperarcs.entries.filter fun entry =>
        phase.covers (rule.isNegativeHyperArc entry.1)).map Prod.snd) := by
  cases phase with
  | positive => rfl
  | negative =>
    show Adjacency.ofGraph rule.l = Adjacency.build _ (List.filter (fun _ => true) _)
      ((List.filter (fun _ => true) _).map Prod.snd)
    rw [List.filter_true, List.filter_true]
    rfl

/-- Neighbours in the pattern are the nodes that an arc of the phase joins. -/
theorem mem_neighbors_pattern {key m : NodeKey} (hkey : rule.l.hasNode key = true) :
    m ∈ ((ofRule host rule).pattern phase).neighbors key ↔
      ∃ arcKey arc, rule.l.arc? arcKey = some arc ∧
        phase.covers (rule.isNegativeArc arcKey) = true ∧ arc.Joins key m := by
  rw [pattern_ofRule, Adjacency.mem_neighbors_build (Registry.lt_of_contains hkey)]
  constructor
  · rintro ⟨⟨arcKey, arc⟩, hmem, hjoins⟩
    obtain ⟨hentry, hcovers⟩ := List.mem_filter.1 hmem
    exact ⟨arcKey, arc, Registry.mem_entries_iff.1 hentry, hcovers, hjoins⟩
  · rintro ⟨arcKey, arc, harc, hcovers, hjoins⟩
    exact ⟨(arcKey, arc), List.mem_filter.2 ⟨Registry.mem_entries_iff.2 harc, hcovers⟩, hjoins⟩

/-- The degree that is looked up for a node is the one that it is compared
by. -/
theorem degree_pattern (hrule : rule.Coherent) {key : NodeKey} (hkey : rule.l.hasNode key = true)
    (hphase : phase.assigns (rule.isNegativeNode key) = true) :
    ((ofRule host rule).pattern phase).degree key = rule.patternDegree key := by
  have hcovers : ∀ negative, phase.covers negative = (rule.isNegativeNode key || !negative) := by
    intro negative
    cases phase with
    | positive =>
      rw [(Bool.not_eq_true' _).mp hphase]
      rfl
    | negative =>
      rw [show rule.isNegativeNode key = true from hphase]
      rfl
  rw [pattern_ofRule, Adjacency.degree_build (Registry.lt_of_contains hkey),
    Adjacency.count_members, List.countP_map, List.countP_eq_length_filter, List.filter_filter]
  · unfold GrammarRule.patternDegree
    simp only [hcovers, Function.comp_def, Bool.and_comm]
  · intro hyperarc hmem
    obtain ⟨⟨key, _⟩, hentry, rfl⟩ := List.mem_map.1 hmem
    exact hrule.l_wellFormed.members_distinct key _
      (Registry.mem_entries_iff.1 (List.mem_filter.1 hentry).1)

/-! ## Counting at an image

The degree of a node of L is a sum over its arcs and hyperarcs, and the degree of its image is a
sum over those of the host. The images of the former are among the latter, and each counts at
least as often. -/

/-- An arc is at a node once for each end that it has there. -/
theorem Arc.count_ends {arc : Arc} {n : NodeKey} :
    arc.ends.count n = (if arc.source = some n then 1 else 0)
      + (if arc.target = some n then 1 else 0) := by
  have hcount : ∀ e : Option NodeKey,
      ([e].filterMap id).count n = if e = some n then 1 else 0 := by
    intro e
    cases e with
    | none => rfl
    | some m =>
      show [m].count n = _
      rw [List.count_singleton]
      simp only [beq_iff_eq, Option.some.injEq]
  show (([arc.source] ++ [arc.target]).filterMap id).count n = _
  rw [List.filterMap_append, List.count_append, hcount, hcount]

/-- An image has no fewer ends at the image of a node than the arc has at the
node. -/
theorem GrammarRule.ArcSuits.count_ends_le {key : ArcKey} {arc given : Arc}
    (h : rule.ArcSuits a key arc given) {n m : NodeKey} (hn : a.node? n = some m) :
    arc.ends.count n ≤ given.ends.count m := by
  have hend : ∀ {wanted e : Option NodeKey}, (rule.arcCondition key).EndMet a wanted e →
      (if wanted = some n then 1 else 0) ≤ if e = some m then 1 else 0 := by
    intro wanted e hmet
    by_cases hwanted : wanted = some n
    · subst hwanted
      obtain ⟨image, himage, he⟩ := hmet
      rw [hn] at himage
      cases himage
      rw [if_pos rfl, if_pos he]
    · rw [if_neg hwanted]
      exact Nat.zero_le _
  rw [Arc.count_ends, Arc.count_ends]
  rcases h.lies with ⟨hsource, htarget⟩ | ⟨-, hsource, htarget⟩
  · exact Nat.add_le_add (hend hsource) (hend htarget)
  · rw [Nat.add_comm (if given.source = _ then _ else _)]
    exact Nat.add_le_add (hend hsource) (hend htarget)

/-- A member that has an image counts at the image. -/
theorem GrammarRule.HyperArcSuits.count_members_le {key : HyperArcKey} {hyperarc given : HyperArc}
    (h : rule.HyperArcSuits a key hyperarc given) (hnodup : hyperarc.members.Nodup) {n m : NodeKey}
    (hn : a.node? n = some m) : hyperarc.members.count n ≤ given.members.count m := by
  by_cases hmem : n ∈ hyperarc.members
  · obtain ⟨image, himage, hgiven⟩ := h.members n hmem
    rw [hn] at himage
    cases himage
    exact (List.nodup_iff_count_le_one.1 hnodup n).trans (List.one_le_count_iff.2 hgiven)
  · rw [List.count_eq_zero.2 hmem]
    exact Nat.zero_le _

/-- Elements with different images that refer to a node no less often than the elements to
another refer to it no less often altogether.

References are counted with repeats, so this is a comparison of two sums. The images are
different keys of the registry, and the sum over some of the keys is no more than the sum over
all. -/
theorem count_nodes_le {κ : Kind} {α : Type} {r : Registry κ α} {entries : List (Key κ × α)}
    (nodesOf : α → List NodeKey) {n m : NodeKey} {image? : Key κ → Option (Key κ)}
    (hnodup : (entries.map Prod.fst).Nodup)
    (hinj : ∀ {key other image}, image? key = some image → image? other = some image →
      key = other)
    (h : ∀ entry ∈ entries, ∃ image given, image? entry.1 = some image ∧
      r.get? image = some given ∧ (nodesOf entry.2).count n ≤ (nodesOf given).count m) :
    (entries.flatMap fun entry => nodesOf entry.2).count n
      ≤ (r.entries.flatMap fun entry => nodesOf entry.2).count m := by
  let image (key : Key κ) : Key κ := (image? key).getD r.nextKey
  let counted (key : Key κ) : Nat := (r.get? key).elim 0 fun given => (nodesOf given).count m
  have himage : ∀ entry ∈ entries, image? entry.1 = some (image entry.1) := by
    intro entry hmem
    obtain ⟨_, _, heq, -⟩ := h entry hmem
    show _ = some ((image? entry.1).getD _)
    rw [heq]
    rfl
  -- the images are some of the keys of the registry, each once
  have hsubperm : ((entries.map Prod.fst).map image).Subperm r.keys := by
    refine (hnodup.map_on ?_).subperm ?_
    · intro key hkey other hother heq
      obtain ⟨entry, hentry, rfl⟩ := List.mem_map.1 hkey
      obtain ⟨entry', hentry', rfl⟩ := List.mem_map.1 hother
      exact hinj (himage entry hentry) (heq ▸ himage entry' hentry')
    · intro key hkey
      obtain ⟨_, hmem, rfl⟩ := List.mem_map.1 hkey
      obtain ⟨entry, hentry, rfl⟩ := List.mem_map.1 hmem
      obtain ⟨_, given, heq, hgiven, -⟩ := h entry hentry
      cases heq.symm.trans (himage entry hentry)
      exact Registry.mem_keys_iff.2 (Option.isSome_iff_exists.2 ⟨given, hgiven⟩)
  obtain ⟨keys, hperm, hsublist⟩ := hsubperm
  calc (entries.flatMap fun entry => nodesOf entry.2).count n
      = (entries.map fun entry => (nodesOf entry.2).count n).sum := List.count_flatMap
    _ ≤ (entries.map fun entry => counted (image entry.1)).sum := by
        refine List.sum_le_sum fun entry hentry => ?_
        obtain ⟨_, given, heq, hgiven, hle⟩ := h entry hentry
        cases heq.symm.trans (himage entry hentry)
        show _ ≤ (r.get? _).elim 0 _
        rw [hgiven]
        exact hle
    _ = (keys.map counted).sum := by
        rw [(hperm.map counted).sum_eq, List.map_map, List.map_map]
        rfl
    _ ≤ (r.keys.map counted).sum := (hsublist.map counted).sum_le_sum fun _ _ => Nat.zero_le _
    _ = (r.entries.map fun entry => (nodesOf entry.2).count m).sum := by
        rw [Registry.keys, List.map_map]
        refine congrArg List.sum (List.map_congr_left fun entry hentry => ?_)
        show (r.get? entry.1).elim 0 _ = _
        rw [Registry.mem_entries_iff.1 hentry]
        rfl
    _ = (r.entries.flatMap fun entry => nodesOf entry.2).count m := List.count_flatMap.symm

/-- **The image of a node in an occurrence has no smaller degree.** This is why the search may
turn away a node of too small a degree before it has looked at any arc. -/
theorem degree_le (hrule : rule.Coherent)
    (hb : rule.OccursAt host phase b) {key image : NodeKey} (hkey : b.node? key = some image)
    (hl : rule.l.hasNode key = true) (himage : host.hasNode image = true) :
    ((ofRule host rule).pattern phase).degree key
      ≤ (ofRule host rule).surroundings.degree image := by
  rw [pattern_ofRule, Adjacency.degree_build (Registry.lt_of_contains hl)]
  rw [surroundings_ofRule, Adjacency.ofGraph,
    Adjacency.degree_build (Registry.lt_of_contains himage), List.flatMap_map, Registry.elements,
    List.flatMap_map]
  refine Nat.add_le_add ?_ ?_
  · refine count_nodes_le Arc.ends (Registry.nodup_keys_filter ..) hb.distinct.arc_inj ?_
    rintro ⟨arcKey, arc⟩ hentry
    obtain ⟨harc, hcovers⟩ := List.mem_filter.1 hentry
    have harc := Registry.mem_entries_iff.1 harc
    obtain ⟨slot, hslot⟩ := Option.isSome_iff_exists.1
      ((hb.assigned (.arc arcKey)).2 ⟨Option.isSome_iff_exists.2 ⟨arc, harc⟩, hcovers⟩)
    obtain ⟨_, given, harc', hgiven, hsuits⟩ := hb.suits _ _ hslot
    cases harc.symm.trans harc'
    exact ⟨⟨slot⟩, given, Assignment.map_index_eq_some.1 hslot, hgiven, hsuits.count_ends_le hkey⟩
  · refine count_nodes_le HyperArc.members (Registry.nodup_keys_filter ..)
      hb.distinct.hyperarc_inj ?_
    rintro ⟨hyperarcKey, hyperarc⟩ hentry
    obtain ⟨hhyperarc, hcovers⟩ := List.mem_filter.1 hentry
    have hhyperarc := Registry.mem_entries_iff.1 hhyperarc
    obtain ⟨slot, hslot⟩ := Option.isSome_iff_exists.1
      ((hb.assigned (.hyperarc hyperarcKey)).2
        ⟨Option.isSome_iff_exists.2 ⟨hyperarc, hhyperarc⟩, hcovers⟩)
    obtain ⟨_, given, hhyperarc', hgiven, hsuits⟩ := hb.suits _ _ hslot
    cases hhyperarc.symm.trans hhyperarc'
    have hnodup := hrule.l_wellFormed.members_distinct hyperarcKey hyperarc hhyperarc
    exact ⟨⟨slot⟩, given, Assignment.map_index_eq_some.1 hslot, hgiven,
      hsuits.count_members_le hnodup hkey⟩

/-! ## Neighbours of images

The search looks for candidates among the neighbours of an image, so a match must have its images
there. -/

/-- The image of an arc that joins two nodes joins their images. -/
theorem GrammarRule.ArcSuits.exists_joins {key : ArcKey} {arc given : Arc}
    (h : rule.ArcSuits a key arc given) {n m : NodeKey} (hjoins : arc.Joins n m) :
    ∃ image other, a.node? n = some image ∧ a.node? m = some other ∧ given.Joins image other := by
  rcases hjoins with ⟨hsource, htarget⟩ | ⟨hsource, htarget⟩
  · rcases h.lies with ⟨hs, ht⟩ | ⟨-, hs, ht⟩
    · obtain ⟨image, himage, hgiven⟩ := hsource ▸ hs
      obtain ⟨other, hother, hgiven'⟩ := htarget ▸ ht
      exact ⟨image, other, himage, hother, .inl ⟨hgiven, hgiven'⟩⟩
    · obtain ⟨image, himage, hgiven⟩ := hsource ▸ hs
      obtain ⟨other, hother, hgiven'⟩ := htarget ▸ ht
      exact ⟨image, other, himage, hother, .inr ⟨hgiven', hgiven⟩⟩
  · rcases h.lies with ⟨hs, ht⟩ | ⟨-, hs, ht⟩
    · obtain ⟨other, hother, hgiven⟩ := hsource ▸ hs
      obtain ⟨image, himage, hgiven'⟩ := htarget ▸ ht
      exact ⟨image, other, himage, hother, .inr ⟨hgiven, hgiven'⟩⟩
    · obtain ⟨other, hother, hgiven⟩ := hsource ▸ hs
      obtain ⟨image, himage, hgiven'⟩ := htarget ▸ ht
      exact ⟨image, other, himage, hother, .inl ⟨hgiven', hgiven⟩⟩

/-- **In an occurrence, neighbours have neighbours as images.** This is why the search may take
its candidates from the neighbours of an image. -/
theorem exists_neighbor (hb : rule.OccursAt host phase b) {key image m : NodeKey}
    (hkey : b.node? key = some image) (hl : rule.l.hasNode key = true)
    (hm : m ∈ ((ofRule host rule).pattern phase).neighbors key) :
    ∃ other, b.node? m = some other ∧
      ∃ arcKey arc, host.arc? arcKey = some arc ∧ arc.Joins image other := by
  obtain ⟨arcKey, arc, harc, hcovers, hjoins⟩ := (mem_neighbors_pattern hl).1 hm
  obtain ⟨slot, hslot⟩ := Option.isSome_iff_exists.1
    ((hb.assigned (.arc arcKey)).2 ⟨Option.isSome_iff_exists.2 ⟨arc, harc⟩, hcovers⟩)
  obtain ⟨_, given, harc', hgiven, hsuits⟩ := hb.suits _ _ hslot
  cases harc.symm.trans harc'
  obtain ⟨image', other, himage, hother, hjoins'⟩ := hsuits.exists_joins hjoins
  cases hkey.symm.trans himage
  exact ⟨other, hother, ⟨slot⟩, given, hgiven, hjoins'⟩

end GraphGrammar
