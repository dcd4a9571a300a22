import GraphGrammar.Proofs.Degree

/-!
# The tables tell what the graphs tell

A search looks up degrees, arcs and neighbours in tables that are filled once, in one pass over arcs
and hyperarcs, where the graph would go through all of them again for each question. There are
tables of the host and two of the left-hand side of the rule, of the whole of it and of what is left
without its negative arcs and hyperarcs.

`Adjacency.Tells` says that tables and graph agree: on degrees, on the arcs at a node with their
order, and on neighbours, each of which is listed once however many arcs lead to it. Those of a host
agree with each other as well, the set of pairs with the lists of neighbours (`Surroundings.Tells`).
`Occurrence.tables_tell` says this of the three tables of a search. The second pattern has no graph
of its own in the search; here it is the left-hand side with these elements removed
(`GrammarRule.withoutNegative`), and its tables are the tables of that graph.

The tables of the positive pattern are those of a graph as well, of L without its negative arcs
and hyperarcs. It is not among the graphs that the search has, so it is made here by removing
them, and the agreement of its tables follows from that of any graph.
-/

namespace GraphGrammar

/-! ## Removing several elements

Removing one after another leaves what was not removed, in its order. Nothing hangs on an arc or
a hyperarc, so removing them keeps a graph well formed. -/

namespace Registry

variable {κ : Kind} {α : Type}

variable [Attributed α]

/-- Removes the elements under some keys. -/
def eraseAll (r : Registry κ α) (keys : List (Key κ)) : Registry κ α :=
  keys.foldl (fun r key => (r.erase key).elim r Prod.snd) r

/-- The elements under the keys are gone, and the others are as they were. -/
theorem get?_eraseAll (r : Registry κ α) (keys : List (Key κ)) (other : Key κ) :
    (r.eraseAll keys).get? other = if other ∈ keys then none else r.get? other := by
  induction keys generalizing r with
  | nil => simp [eraseAll]
  | cons key rest ih =>
    have hstep : r.eraseAll (key :: rest) = ((r.erase key).elim r Prod.snd).eraseAll rest := rfl
    rw [hstep, ih]
    cases herase : r.erase key with
    | none =>
      have hdead := erase_eq_none_iff.1 herase
      by_cases hother : other = key
      · simp [hother, hdead]
      · simp [hother]
    | some found =>
      obtain ⟨a, after⟩ := found
      by_cases hother : other = key
      · simp [hother, get?_erase herase]
      · simp [hother, get?_erase herase]

/-- The index is kept in order. -/
theorem indexed_eraseAll {r : Registry κ α} (h : Graph.Indexed r) (keys : List (Key κ)) :
    Graph.Indexed (r.eraseAll keys) := by
  refine List.foldlRecOn keys _ h fun r h key _ => ?_
  cases herase : r.erase key with
  | none => exact h
  | some found => exact h.erase herase

/-- The other elements stay, in their order. -/
theorem entries_eraseAll (r : Registry κ α) (keys : List (Key κ)) :
    (r.eraseAll keys).entries = r.entries.filter fun entry => !keys.contains entry.1 := by
  refine entries_eq_of_mem_iff (r.pairwise_entries.sublist List.filter_sublist) fun key a => ?_
  rw [List.mem_filter, mem_entries_iff, get?_eraseAll]
  by_cases hkey : key ∈ keys
  · simp [hkey]
  · simp [hkey]

/-- Removing the elements that are told by a test leaves those that are not. -/
theorem entries_eraseAll_filter (r : Registry κ α) (p : Key κ → Bool) :
    (r.eraseAll (r.keys.filter p)).entries = r.entries.filter fun entry => !p entry.1 := by
  rw [entries_eraseAll]
  refine List.filter_congr fun entry hentry => ?_
  have hkey : entry.1 ∈ r.keys := List.mem_map_of_mem hentry
  rw [Bool.eq_iff_iff]
  simp [hkey]

end Registry

namespace Graph

/-- The graph without some of its arcs. -/
def removeArcs (g : Graph) (keys : List ArcKey) : Graph :=
  keys.foldl (fun g key => (g.removeArc key).elim g Prod.snd) g

/-- The graph without some of its hyperarcs. -/
def removeHyperArcs (g : Graph) (keys : List HyperArcKey) : Graph :=
  keys.foldl (fun g key => (g.removeHyperArc key).elim g Prod.snd) g

/-- Removing arcs changes the registry of arcs only. -/
theorem removeArcs_eq (g : Graph) (keys : List ArcKey) :
    g.removeArcs keys = { g with arcs := g.arcs.eraseAll keys } := by
  refine List.foldl_hom (fun arcs => { g with arcs }) fun arcs key => ?_
  dsimp only [removeArc]
  cases arcs.erase key with
  | none => rfl
  | some found => rfl

/-- Removing hyperarcs changes the registry of hyperarcs only. -/
theorem removeHyperArcs_eq (g : Graph) (keys : List HyperArcKey) :
    g.removeHyperArcs keys = { g with hyperarcs := g.hyperarcs.eraseAll keys } := by
  refine List.foldl_hom (fun hyperarcs => { g with hyperarcs }) fun hyperarcs key => ?_
  dsimp only [removeHyperArc]
  cases hyperarcs.erase key with
  | none => rfl
  | some found => rfl

/-- Removing arcs keeps a graph well formed. -/
theorem WellFormed.removeArcs {g : Graph} (h : g.WellFormed) (keys : List ArcKey) :
    (g.removeArcs keys).WellFormed := by
  rw [removeArcs_eq]
  refine h.withArcs (Registry.indexed_eraseAll h.arcs_indexed keys) fun key arc harc => ?_
  rw [Registry.get?_eraseAll] at harc
  split at harc
  · exact nomatch harc
  · exact h.ends_alive key arc harc

/-- Removing hyperarcs keeps a graph well formed. -/
theorem WellFormed.removeHyperArcs {g : Graph} (h : g.WellFormed) (keys : List HyperArcKey) :
    (g.removeHyperArcs keys).WellFormed := by
  rw [removeHyperArcs_eq]
  refine h.withHyperArcs (Registry.indexed_eraseAll h.hyperarcs_indexed keys)
    fun key hyperarc hh => ?_
  rw [Registry.get?_eraseAll] at hh
  split at hh
  · exact nomatch hh
  · exact ⟨h.members_alive key hyperarc hh, h.members_distinct key hyperarc hh⟩

end Graph

/-! ## What tables tell of a graph

To tell is to agree for every live node. Of slots that are empty the tables may say anything, and
the search never asks. -/

/-- **The tables tell what the graph tells.** -/
structure Adjacency.Tells (t : Adjacency) (g : Graph) : Prop where
  degree : ∀ node, g.hasNode node = true → t.degree node = g.degree node
  /-- The arcs at a node are listed as the graph lists them. -/
  incident : ∀ node, g.hasNode node = true → t.incident node = g.incidentArcs node
  /-- They stand in their order, and so each of them once, loops too. -/
  ascending : ∀ node, (t.incident node).Pairwise fun a b => a.index < b.index
  /-- The neighbours of a node are those that an arc joins it with, whichever way it points. -/
  mem_neighbors : ∀ a b, b ∈ t.neighbors a ↔ ∃ key arc, g.arc? key = some arc ∧ arc.Joins a b
  /-- No neighbour is listed twice, however many arcs lead to it. -/
  nodup_neighbors : ∀ a, (t.neighbors a).Nodup

/-- **The tables of a well-formed graph tell what it tells.** For the keys of slots there are the
theorems on filling, and beyond them both the tables and the graph have nothing. -/
theorem Adjacency.tells_ofGraph {g : Graph} (hg : g.WellFormed) : (ofGraph g).Tells g := by
  have hsized : Sized g.nodes.cells.length (ofGraph g) := Sized.build ..
  constructor
  · exact fun node hnode => degree_ofGraph hg hnode
  · exact fun node hnode => incident_ofGraph hnode
  · intro node
    rcases Nat.lt_or_ge node.index g.nodes.cells.length with hlt | hge
    · rw [ofGraph, incident_build hlt]
      exact List.pairwise_map.2 (g.arcs.pairwise_entries.sublist List.filter_sublist)
    · rw [(hsized.of_le hge).2.1]
      exact .nil
  · intro a b
    rcases Nat.lt_or_ge a.index g.nodes.cells.length with hlt | hge
    · exact mem_neighbors_ofGraph hlt
    · -- no arc ends where there is no slot
      rw [(hsized.of_le hge).2.2]
      refine iff_of_false List.not_mem_nil ?_
      rintro ⟨key, arc, harc, hjoins⟩
      have ha : g.hasNode a = true :=
        hg.ends_alive key arc harc a (Arc.mem_ends.2 (hjoins.imp And.left And.right))
      exact absurd (Registry.lt_of_contains ha) (Nat.not_lt.2 hge)
  · intro a
    rcases Nat.lt_or_ge a.index g.nodes.cells.length with hlt | hge
    · exact nodup_neighbors_build hlt ..
    · rw [(hsized.of_le hge).2.2]
      exact .nil

namespace Surroundings

/-- **The tables of a host tell what the host tells**, and the set of pairs tells which nodes are
joined. -/
structure Tells (t : Surroundings) (g : Graph) : Prop extends t.toAdjacency.Tells g where
  joined_iff : ∀ a b, t.joined a b = true ↔ ∃ key arc, g.arc? key = some arc ∧ arc.Joins a b
  joined_comm : ∀ a b, t.joined a b = t.joined b a
  /-- The neighbours of a node are the nodes it is joined to, each once. -/
  count_neighbors : ∀ a b, (t.neighbors a).count b = if t.joined a b then 1 else 0

/-- The tables of a host tell what it tells, as they are those of a graph with the set of pairs
beside them. -/
theorem tells_ofGraph {g : Graph} (hg : g.WellFormed) : (ofGraph g).Tells g := by
  have htables : (ofGraph g).toAdjacency.Tells g := by
    rw [toAdjacency_ofGraph]
    exact Adjacency.tells_ofGraph hg
  refine ⟨htables, fun a b => joined_ofGraph_iff, fun a b => ?_, fun a b => ?_⟩
  · rw [Bool.eq_iff_iff, joined_ofGraph_iff, joined_ofGraph_iff]
    exact exists_congr fun key => exists_congr fun arc => and_congr_right fun _ =>
      ⟨Arc.Joins.symm, Arc.Joins.symm⟩
  · have hpaired : b ∈ (ofGraph g).neighbors a ↔ (ofGraph g).joined a b = true :=
      (htables.mem_neighbors a b).trans joined_ofGraph_iff.symm
    rw [(htables.nodup_neighbors a).count]
    exact if_congr hpaired rfl rfl

end Surroundings

/-! ## The tables of a search

A search has the tables of its host and two of its pattern, for the two phases. -/

/-- The left-hand side of a rule without its negative arcs and hyperarcs. All nodes stay. -/
def GrammarRule.withoutNegative (rule : GrammarRule) : Graph :=
  (rule.l.removeArcs (rule.l.arcs.keys.filter rule.isNegativeArc)).removeHyperArcs
    (rule.l.hyperarcs.keys.filter rule.isNegativeHyperArc)

/-- Without its negative arcs and hyperarcs, L has its other ones in their order. -/
theorem GrammarRule.withoutNegative_eq (rule : GrammarRule) :
    rule.withoutNegative = { rule.l with
      arcs := rule.l.arcs.eraseAll (rule.l.arcs.keys.filter rule.isNegativeArc)
      hyperarcs := rule.l.hyperarcs.eraseAll
        (rule.l.hyperarcs.keys.filter rule.isNegativeHyperArc) } := by
  rw [withoutNegative, Graph.removeArcs_eq, Graph.removeHyperArcs_eq]

namespace Occurrence

variable {host : Graph} {rule : GrammarRule}

/-- **The tables of the positive pattern are those of a graph.** -/
theorem positive_ofRule (host : Graph) (rule : GrammarRule) :
    (ofRule host rule).positive = .ofGraph rule.withoutNegative := by
  rw [rule.withoutNegative_eq, Adjacency.ofGraph, Registry.entries_eraseAll_filter,
    Registry.elements, Registry.entries_eraseAll_filter]
  rfl

/-- **The tables of a search tell what the graphs tell**: those of a well formed host what the host
tells, and of a rule that was built those of the whole pattern what its left-hand side tells, and
those of the positive pattern what the left-hand side tells without its negative arcs and hyperarcs.
The tables of the patterns have one place for each node. -/
theorem tables_tell :
    (∀ host rule, host.WellFormed → (ofRule host rule).surroundings.Tells host) ∧
      ∀ host rule, rule.Built →
        (ofRule host rule).whole.Tells rule.l ∧
        (ofRule host rule).positive.Tells rule.withoutNegative ∧
        Adjacency.Sized rule.l.nodes.count (ofRule host rule).whole ∧
        Adjacency.Sized rule.l.nodes.count (ofRule host rule).positive := by
  refine ⟨fun host rule hhost => Surroundings.tells_ofGraph hhost, fun host rule hrule => ?_⟩
  have hl := hrule.coherent.l_wellFormed
  have hcount : rule.l.nodes.count = rule.l.nodes.cells.length := by
    rw [hl.nodes_indexed.count_eq, hrule.coherent.l_compact.nodes.keys_eq]
    simp
  refine ⟨Adjacency.tells_ofGraph hl, ?_, ?_, ?_⟩
  · rw [positive_ofRule]
    exact Adjacency.tells_ofGraph ((hl.removeArcs _).removeHyperArcs _)
  · rw [hcount]
    exact Adjacency.Sized.build ..
  · rw [hcount]
    exact Adjacency.Sized.build ..

end Occurrence

/-- Two nodes with every sort of arc: a loop, two arcs against each other and a dangling one, and a
hyperarc of both nodes. -/
def Graph.knot : Graph where
  nodes := .ofElements [{ name := "a" }, { name := "b" }]
  arcs := .ofElements
    [{ name := "d", source := some ⟨0⟩ }, { name := "e", source := some ⟨0⟩, target := some ⟨1⟩ },
      { name := "f", source := some ⟨1⟩, target := some ⟨0⟩ },
      { name := "g", source := some ⟨0⟩, target := some ⟨0⟩ }]
  hyperarcs := .ofElements [{ name := "h", members := [⟨1⟩, ⟨0⟩] }]

/-- The rule that removes a knot in which one arc and the hyperarc are missing. -/
def GrammarRule.removeKnot : GrammarRule where
  name := "remove knot"
  l := .knot
  k := .empty
  r := .empty
  nodeConditions := [{}, {}]
  arcConditions := [{}, {}, { negative := true }, {}]
  hyperarcConditions := [{ negative := true }]
  contextNodes := .empty
  contextArcs := .empty
  contextHyperArcs := .empty

/-- All ends and members are there. -/
theorem Graph.knot_wellFormed : Graph.knot.WellFormed :=
  Graph.wellFormed_of_copy_eq rfl (Graph.membersDistinct_ofElements rfl (by decide))

/-- The rule passes every check of a draft. -/
theorem GrammarRule.removeKnot_built : GrammarRule.removeKnot.Built :=
  ⟨{ name := "remove knot"
     l := .knot
     arcConditions := .ofList [("f", { negative := true })]
     hyperarcConditions := .ofList [("h", { negative := true })] },
    ⟨Graph.membersDistinct_ofElements rfl (by decide), Graph.membersDistinct_of_no_hyperarcs rfl,
      nofun⟩,
    rfl⟩

namespace Occurrence

/-- The loop counts twice but is listed once, as is the other node. -/
theorem tables_tell_knot :
    let tables := ofRule .knot .removeKnot
    Graph.knot.WellFormed ∧ GrammarRule.removeKnot.Built ∧
      tables.surroundings.degree ⟨0⟩ = Graph.knot.degree ⟨0⟩ ∧ Graph.knot.degree ⟨0⟩ = 6 ∧
      tables.surroundings.incident ⟨0⟩ = [⟨0⟩, ⟨1⟩, ⟨2⟩, ⟨3⟩] ∧
      (tables.surroundings.neighbors ⟨0⟩).count ⟨1⟩ = 1 ∧
      tables.whole.degree ⟨0⟩ = 6 ∧
      tables.positive.degree ⟨0⟩ = 4 ∧
      ⟨0⟩ ∈ tables.positive.neighbors ⟨1⟩ := by
  obtain ⟨hhost, hrule⟩ := tables_tell
  have hsurroundings := hhost .knot .removeKnot Graph.knot_wellFormed
  obtain ⟨hwhole, hpositive, -, -⟩ := hrule .knot .removeKnot GrammarRule.removeKnot_built
  refine ⟨Graph.knot_wellFormed, GrammarRule.removeKnot_built, hsurroundings.degree _ rfl, rfl,
    ?_, ?_, ?_, ?_, ?_⟩
  · rw [hsurroundings.incident _ rfl]
    decide +kernel
  · rw [hsurroundings.count_neighbors, if_pos]
    exact (hsurroundings.joined_iff _ _).2 ⟨⟨1⟩, _, rfl, .inl ⟨rfl, rfl⟩⟩
  · exact hwhole.degree ⟨0⟩ rfl
  · exact hpositive.degree ⟨0⟩ rfl
  · exact (hpositive.mem_neighbors _ _).2 ⟨⟨1⟩, _, rfl, .inr ⟨rfl, rfl⟩⟩

end Occurrence

end GraphGrammar
