import Mathlib.Data.List.Count
import GraphGrammar.Proofs.Relocation
import GraphGrammar.Proofs.Surroundings
import GraphGrammar.Recognition.Fit

/-!
# What fits in other slots

Of two graphs of which the second is the first in other slots, the same elements fit
an element of a pattern, and they are tried in the same order
(`Occurrence.Relocated.extensions`). The candidates come from the lists of live
elements, which are in the order of the slots, and from the adjacency tables. Degrees
and incident arcs are known from the lists of arcs and hyperarcs; the neighbours are
listed in the order in which the arcs bring them up, so the table is followed arc by
arc (`Adjacency.neighbors_foldl_addArc_move`).

What makes the two searches the same is an order, and not just a bijection. Candidates are tried
in the order of their slots, and the first that fits decides what the later ones are asked about,
so a pairing that mixed up the order would find the same matches in another sequence and would
stop somewhere else under a limit.
-/

namespace GraphGrammar

open Attributed

/-! ## Other keys

An assignment is translated place by place. Where the keys go is given as any function on keys
here, as the translations there and back are both needed, and only one of them is a relocation. -/

/-- An assignment with other keys in it. -/
def Assignment.rekeyed (a : Assignment) (f : (κ : Kind) → Key κ → Key κ) : Assignment where
  nodes := a.nodes.map (·.map (f .node))
  arcs := a.arcs.map (·.map (f .arc))
  hyperarcs := a.hyperarcs.map (·.map (f .hyperarc))

/-- An option with other keys in it. -/
def RuleOption.rekeyed (o : RuleOption) (f : (κ : Kind) → Key κ → Key κ) : RuleOption :=
  { o with toAssignment := o.toAssignment.rekeyed f }

/-- Where keys are taken to. -/
def Relocation.keys (σ : Relocation) (κ : Kind) : Key κ → Key κ := σ.key

/-- Whether a key is listed is asked in either graph; no two keys become one. -/
@[simp] theorem Relocation.contains_keys (σ : Relocation) {κ : Kind} (keys : List (Key κ))
    (key : Key κ) : (keys.map (σ.keys κ)).contains (σ.key key) = keys.contains key :=
  σ.contains_map

section

variable {κ : Kind} {places : List (Option (Key κ))} {f : Key κ → Key κ}

/-- The place of an element in an assignment is the place of its translated image. -/
theorem join_getElem?_map (i : Nat) :
    ((places.map (·.map f))[i]?).join = (places[i]?.join).map f := by
  rw [List.getElem?_map]
  cases places[i]? <;> rfl

theorem filterMap_id_map : (places.map (·.map f)).filterMap id = (places.filterMap id).map f := by
  rw [List.filterMap_map, List.map_filterMap]
  rfl

end

namespace Assignment

variable (a : Assignment) (f : (κ : Kind) → Key κ → Key κ)

/-- The image of a node of L, translated. -/
@[simp] theorem node?_rekeyed (key : NodeKey) :
    (a.rekeyed f).node? key = (a.node? key).map (f .node) := join_getElem?_map key.index

@[simp] theorem arc?_rekeyed (key : ArcKey) :
    (a.rekeyed f).arc? key = (a.arc? key).map (f .arc) := join_getElem?_map key.index

@[simp] theorem hyperarc?_rekeyed (key : HyperArcKey) :
    (a.rekeyed f).hyperarc? key = (a.hyperarc? key).map (f .hyperarc) := join_getElem?_map key.index

/-- The images are listed in the order of the elements of L, and this order is not one of slots
of the host, so it is the same in both. -/
@[simp] theorem nodeImages_rekeyed : (a.rekeyed f).nodeImages = a.nodeImages.map (f .node) :=
  filterMap_id_map

@[simp] theorem arcImages_rekeyed : (a.rekeyed f).arcImages = a.arcImages.map (f .arc) :=
  filterMap_id_map

@[simp] theorem hyperarcImages_rekeyed :
    (a.rekeyed f).hyperarcImages = a.hyperarcImages.map (f .hyperarc) := filterMap_id_map

/-- A node of a pattern has its image in a hyperarc, or not, in either graph. -/
theorem any_contains_rekeyed (σ : Relocation) (hyperarc : HyperArc) (member : NodeKey) :
    ((a.rekeyed σ.keys).node? member).any (σ.move hyperarc).contains
      = (a.node? member).any hyperarc.contains := by
  rw [node?_rekeyed]
  cases a.node? member with
  | none => rfl
  | some node => exact σ.hyperarc_contains_move hyperarc node

/-- Assignments that are disjoint stay so in other slots. -/
theorem disjoint_rekeyed (σ : Relocation) (b : Assignment) :
    (a.rekeyed σ.keys).disjoint (b.rekeyed σ.keys) = a.disjoint b := by
  unfold disjoint
  simp only [nodeImages_rekeyed, arcImages_rekeyed, hyperarcImages_rekeyed, List.all_map]
  have hcontains : ∀ {κ : Kind} (keys : List (Key κ)),
      (fun key => !(keys.map (σ.keys κ)).contains key) ∘ σ.keys κ = fun key => !keys.contains key :=
    fun keys => funext fun key => congrArg _ (σ.contains_map)
  rw [hcontains, hcontains, hcontains]

end Assignment

/-! ## The adjacency tables

The tables are filled arc by arc. Both fillings go over corresponding arcs in the same order, so
the induction is on the arcs, and it carries along that the tables are large enough. -/

namespace Adjacency

variable {σ : Relocation} {slots slots' : Nat} {t t' : Adjacency} {n : NodeKey}

/-- An arc with its key, taken to another slot. -/
def moveEntry (σ : Relocation) (entry : ArcKey × Arc) : ArcKey × Arc :=
  (σ.key entry.1, σ.move entry.2)

/-- One entry of the tables. A neighbour is put in unless it is there already, and it is there in
one table if it is in the other. -/
theorem neighbors_addNeighbor_move (h : Sized slots t) (h' : Sized slots' t')
    (hn : n.index < slots) (hn' : (σ.key n).index < slots')
    (hsame : t'.neighbors (σ.key n) = (t.neighbors n).map σ.key) (a b : NodeKey) :
    (t'.addNeighbor (σ.key a) (σ.key b)).neighbors (σ.key n)
      = ((t.addNeighbor a b).neighbors n).map σ.key := by
  rw [neighbors_addNeighbor h' hn', neighbors_addNeighbor h hn, hsame]
  simp only [Relocation.key_inj, List.mem_map_of_injective σ.key_injective]
  split
  · rw [List.map_append, List.map_singleton]
  · rfl

/-- **Neighbours are brought up in the same order**, arc by arc. The other tables can be read off
the graph, but the order of the neighbours is the order in which they were brought up, so this
one is followed through the filling. -/
theorem neighbors_foldl_addArc_move (hn : n.index < slots) (hn' : (σ.key n).index < slots')
    (arcs : List (ArcKey × Arc)) :
    ∀ {t t' : Adjacency}, Sized slots t → Sized slots' t' →
      t'.neighbors (σ.key n) = (t.neighbors n).map σ.key →
      ((arcs.map (moveEntry σ)).foldl addArc t').neighbors (σ.key n)
        = ((arcs.foldl addArc t).neighbors n).map σ.key := by
  induction arcs with
  | nil => exact fun _ _ hsame => hsame
  | cons entry rest ih =>
    intro t t' h h' hsame
    obtain ⟨key, arc⟩ := entry
    rw [List.map_cons, List.foldl_cons, List.foldl_cons]
    refine ih (h.addArc _) (h'.addArc _) ?_
    have hends := h.addEnds key arc
    have hendsσ := h'.addEnds (σ.key key) (σ.move arc)
    -- counting and listing leave the neighbours alone
    obtain ⟨-, -, hneighbors⟩ := addEnds_at h hn key arc
    obtain ⟨-, -, hneighborsσ⟩ := addEnds_at h' hn' (σ.key key) (σ.move arc)
    have hendssame := hneighborsσ.trans hsame
    rw [← hneighbors] at hendssame
    unfold moveEntry addArc
    dsimp only
    rw [Relocation.source_move, Relocation.target_move]
    cases arc.source with
    | none => exact hendssame
    | some source =>
      cases arc.target with
      | none => exact hendssame
      | some target =>
        exact neighbors_addNeighbor_move (hends.addNeighbor _ _) (hendsσ.addNeighbor _ _) hn hn'
          (neighbors_addNeighbor_move hends hendsσ hn hn' hendssame source target)
          target source

/-- The second tables say of nodes in other slots what the first ones say of the
nodes. -/
structure Relocated (σ : Relocation) (t t' : Adjacency) : Prop where
  degree : ∀ n, t'.degree (σ.key n) = t.degree n
  incident : ∀ n, t'.incident (σ.key n) = (t.incident n).map σ.key
  neighbors : ∀ n, t'.neighbors (σ.key n) = (t.neighbors n).map σ.key

/-- **The tables of a graph in other slots are its tables in other slots.** Keys beyond the slots
of a graph have no entries in its tables, on neither side. -/
theorem ofGraph_relocated {g g' : Graph} (h : g.Relocated σ g') :
    Relocated σ (ofGraph g) (ofGraph g') := by
  have hat : ∀ n, (ofGraph g').degree (σ.key n) = (ofGraph g).degree n ∧
      (ofGraph g').incident (σ.key n) = ((ofGraph g).incident n).map σ.key ∧
      (ofGraph g').neighbors (σ.key n) = ((ofGraph g).neighbors n).map σ.key := by
    intro n
    have hsized := Sized.build g.nodes.cells.length g.arcs.entries g.hyperarcs.elements
    have hsized' := Sized.build g'.nodes.cells.length g'.arcs.entries g'.hyperarcs.elements
    -- tables have entries for the slots of their graph, and the two graphs have corresponding
    -- slots
    by_cases hn : n.index < g.nodes.cells.length
    · have hn' := h.nodes.index_lt_iff.2 hn
      refine ⟨?_, ?_, ?_⟩
      · rw [ofGraph, ofGraph, degree_build hn, degree_build hn', h.arcs.entries,
          h.hyperarcs.elements, List.flatMap_map, List.flatMap_map]
        simp only [Relocation.ends_move, Relocation.members_move]
        rw [← List.map_flatMap, ← List.map_flatMap, List.count_map_of_injective _ _ σ.key_injective,
          List.count_map_of_injective _ _ σ.key_injective]
      · rw [ofGraph, ofGraph, incident_build hn, incident_build hn', h.arcs.entries,
          List.filter_map, List.map_map, List.map_map]
        have htouches : ∀ entry : ArcKey × Arc,
            (σ.move entry.2).touches (σ.key n) = entry.2.touches n := fun entry => by
          rw [Bool.eq_iff_iff, Arc.touches_iff, Arc.touches_iff, Relocation.ends_move,
            List.mem_map_of_injective σ.key_injective]
        congr 1
        exact List.filter_congr fun entry _ => htouches entry
      · have hblank := (blank_at hn).2.2
        have hsame := neighbors_foldl_addArc_move (σ := σ) hn hn' g.arcs.entries
          Sized.blank Sized.blank
          (by rw [hblank, (blank_at hn').2.2]; rfl)
        rw [ofGraph, ofGraph, h.arcs.entries, Adjacency.build, Adjacency.build,
          (foldl_addHyperArc (Sized.blank.addArcs _) hn _).2.2,
          (foldl_addHyperArc (Sized.blank.addArcs _) hn' _).2.2]
        exact hsame
    · obtain ⟨hdegree, hincident, hneighbors⟩ := hsized.of_le (Nat.le_of_not_lt hn)
      obtain ⟨hdegree', hincident', hneighbors'⟩ :=
        hsized'.of_le (Nat.le_of_not_lt (mt h.nodes.index_lt_iff.1 hn))
      rw [ofGraph, ofGraph, hdegree, hdegree', hincident, hincident', hneighbors, hneighbors']
      exact ⟨rfl, rfl, rfl⟩
  exact ⟨fun n => (hat n).1, fun n => (hat n).2.1, fun n => (hat n).2.2⟩

end Adjacency

namespace Surroundings

/-- The tables of a host say so too, and join the same nodes. -/
structure Relocated (σ : Relocation) (t t' : Surroundings) : Prop
    extends Adjacency.Relocated σ t.toAdjacency t'.toAdjacency where
  joined : ∀ a b, t'.joined (σ.key a) (σ.key b) = t.joined a b

/-- The tables of the host are built like those of the rule, with the pairs of joined nodes
besides. -/
theorem ofGraph_relocated {σ : Relocation} {g g' : Graph} (h : g.Relocated σ g') :
    Relocated σ (ofGraph g) (ofGraph g') where
  toRelocated := by
    rw [toAdjacency_ofGraph, toAdjacency_ofGraph]
    exact Adjacency.ofGraph_relocated h
  joined a b := by
    have hjoins : ∀ arc : Arc, (σ.move arc).Joins (σ.key a) (σ.key b) ↔ arc.Joins a b := by
      intro arc
      simp only [Arc.Joins, Relocation.source_move, Relocation.target_move,
        Relocation.map_key_eq_some_iff]
    rw [Bool.eq_iff_iff, joined_ofGraph_iff, joined_ofGraph_iff]
    constructor
    · rintro ⟨key, arc, harc, harcJoins⟩
      obtain ⟨source, rfl⟩ := h.arcs.covers key arc harc
      obtain ⟨given, hgiven, rfl⟩ := Option.map_eq_some_iff.1 ((h.arc? source).symm.trans harc)
      exact ⟨source, given, hgiven, (hjoins given).1 harcJoins⟩
    · rintro ⟨key, arc, harc, harcJoins⟩
      refine ⟨σ.key key, σ.move arc, ?_, (hjoins arc).2 harcJoins⟩
      rw [h.arc?, harc]
      rfl

end Surroundings

/-! ## Which elements fit -/

namespace Occurrence

variable {σ : Relocation} {s s' : Occurrence}

/-- The same search in a host and in the host in other slots. -/
structure Relocated (σ : Relocation) (s s' : Occurrence) : Prop where
  host : s.host.Relocated σ s'.host
  surroundings : s.surroundings.Relocated σ s'.surroundings
  rule : s'.rule = s.rule
  positive : s'.positive = s.positive
  whole : s'.whole = s.whole

/-- A search for the same rule in both graphs begins in states that correspond. -/
theorem relocated_ofRule {host host' : Graph} (h : host.Relocated σ host') (rule : GrammarRule) :
    (ofRule host rule).Relocated σ (ofRule host' rule) :=
  ⟨h, Surroundings.ofGraph_relocated h, rfl, rfl, rfl⟩

namespace Relocated

variable (h : s.Relocated σ s') (phase : Phase) (a : Assignment)
include h

theorem pattern : s'.pattern phase = s.pattern phase := by
  cases phase
  · exact h.positive
  · exact h.whole

/-! ### Nodes

The pattern is the same for both searches. What is asked of a candidate is asked of the node
itself, which does not change, or of its place in the tables, which does. -/

/-- The candidates are the neighbours of an image that is there, or all nodes, and in either case
they are listed alike. -/
theorem nodeCandidates (key : NodeKey) :
    s'.nodeCandidates phase (a.rekeyed σ.keys) key
      = (s.nodeCandidates phase a key).map σ.key := by
  have hfind : ∀ keys : List NodeKey, keys.findSome? (a.rekeyed σ.keys).node?
      = (keys.findSome? a.node?).map σ.key := by
    intro keys
    rw [List.map_findSome?]
    exact congrArg (List.findSome? · keys) (funext (a.node?_rekeyed σ.keys))
  unfold Occurrence.nodeCandidates
  rw [h.pattern, hfind]
  cases List.findSome? a.node? _ with
  | none => exact h.host.nodes.keys
  | some image => exact h.surroundings.neighbors image

theorem nodeConnects (key image : NodeKey) :
    s'.nodeConnects phase (a.rekeyed σ.keys) key (σ.key image)
      = s.nodeConnects phase a key image := by
  unfold Occurrence.nodeConnects
  rw [h.pattern]
  congr 1
  funext neighbor
  have hother : (if neighbor = key then some (σ.key image) else (a.rekeyed σ.keys).node? neighbor)
      = (if neighbor = key then some image else a.node? neighbor).map σ.key := by
    split
    · rfl
    · exact a.node?_rekeyed σ.keys neighbor
  rw [hother]
  cases (if neighbor = key then some image else a.node? neighbor) with
  | none => rfl
  | some other => exact h.surroundings.joined image other

/-- A node fits by its labels, its values, its degree and what it is connected to. -/
theorem nodeFits (key image : NodeKey) :
    s'.nodeFits phase (a.rekeyed σ.keys) key (σ.key image) = s.nodeFits phase a key image := by
  have hpasses : ∀ node host, s'.nodePasses phase key (σ.key image) node host
      = s.nodePasses phase key image node host := by
    intro node host
    unfold Occurrence.nodePasses
    rw [h.rule, h.pattern, h.surroundings.degree]
  unfold Occurrence.nodeFits
  rw [h.nodeConnects, a.nodeImages_rekeyed, σ.contains_keys, h.rule, h.host.node?]
  simp only [hpasses]

/-! ### Arcs

An arc is compared with an arc of the pattern by its ends, and these are taken along with
everything they are compared with. -/

omit h in
theorem bind_rekeyed (side : Option NodeKey) :
    side.bind (a.rekeyed σ.keys).node? = (side.bind a.node?).map σ.key := by
  cases side with
  | none => rfl
  | some node => exact a.node?_rekeyed σ.keys node

theorem arcCandidates (key : ArcKey) :
    s'.arcCandidates (a.rekeyed σ.keys) key = (s.arcCandidates a key).map σ.key := by
  unfold Occurrence.arcCandidates
  rw [h.rule]
  cases s.rule.l.arc? key with
  | none => rfl
  | some arc =>
    dsimp only
    rw [bind_rekeyed, bind_rekeyed, ← Option.map_or]
    cases (arc.source.bind a.node?).or (arc.target.bind a.node?) with
    | none => exact h.host.arcs.keys
    | some image => exact h.surroundings.incident image

omit h in
/-- The condition of an arc may leave an end open, and whether it does is not a matter of keys.
-/
theorem endFits (condition : ArcCondition) (wanted given : Option NodeKey) :
    Occurrence.endFits condition (wanted.map σ.key) (given.map σ.key)
      = Occurrence.endFits condition wanted given := by
  cases wanted with
  | none =>
    show (!condition.danglingMeansDangling || (given.map σ.key).isNone) = _
    rw [Option.isNone_map]
    rfl
  | some node =>
    show (given.map σ.key == some (σ.key node)) = (given == some node)
    rw [Bool.eq_iff_iff, beq_iff_eq, beq_iff_eq, σ.map_key_eq_some_iff]

omit h in
theorem endsFit (condition : ArcCondition) (arc host : Arc) :
    Occurrence.endsFit condition (a.rekeyed σ.keys) arc (σ.move host)
      = Occurrence.endsFit condition a arc host := by
  unfold Occurrence.endsFit
  simp only [bind_rekeyed, Relocation.source_move, Relocation.target_move, endFits]
  rfl

/-- An arc fits by its attributes, its flags and its ends. -/
theorem arcFits (key image : ArcKey) :
    s'.arcFits (a.rekeyed σ.keys) key (σ.key image) = s.arcFits a key image := by
  unfold Occurrence.arcFits
  rw [a.arcImages_rekeyed, σ.contains_keys, h.rule, h.host.arc?]
  cases s.rule.l.arc? key with
  | none => rfl
  | some arc =>
    cases s.host.arc? image with
    | none => rfl
    | some host =>
      dsimp only [Option.map_some]
      rw [endsFit]
      rfl

/-! ### Hyperarcs

Members are compared as sets of images, and taking along is injective, so nothing that was
different is made the same. -/

/-- The hyperarcs at a node are listed in the order of their slots. -/
theorem hyperarcsOf (node : NodeKey) :
    s'.host.hyperarcsOf (σ.key node) = (s.host.hyperarcsOf node).map σ.key := by
  unfold Graph.hyperarcsOf
  rw [h.host.hyperarcs.entries, List.filter_map, List.map_map, List.map_map]
  congr 1
  exact List.filter_congr fun entry _ => σ.hyperarc_contains_move entry.2 node

theorem hyperarcCandidates (key : HyperArcKey) :
    s'.hyperarcCandidates (a.rekeyed σ.keys) key = (s.hyperarcCandidates a key).map σ.key := by
  unfold Occurrence.hyperarcCandidates
  rw [h.rule, bind_rekeyed]
  cases ((s.rule.l.hyperarc? key).bind (·.members.head?)).bind a.node? with
  | none => exact h.host.hyperarcs.keys
  | some image => exact h.hyperarcsOf image

/-- A hyperarc fits by its attributes and by the images among its members. -/
theorem hyperarcFits (key image : HyperArcKey) :
    s'.hyperarcFits (a.rekeyed σ.keys) key (σ.key image) = s.hyperarcFits a key image := by
  unfold Occurrence.hyperarcFits
  rw [a.hyperarcImages_rekeyed, σ.contains_keys, h.rule, h.host.hyperarc?]
  cases s.rule.l.hyperarc? key with
  | none => rfl
  | some hyperarc =>
    cases s.host.hyperarc? image with
    | none => rfl
    | some host =>
      dsimp only [Option.map_some]
      simp only [a.any_contains_rekeyed, Relocation.members_move, List.length_map]
      rfl

/-! ### One element further -/

/-- **The same assignments are tried, in the same order.** Candidates correspond in their order,
each passes the test just if its counterpart does, and what is assigned is the counterpart. -/
theorem extensions (e : PatternElement) :
    s'.extensions phase (a.rekeyed σ.keys) e = (s.extensions phase a e).map (·.rekeyed σ.keys) := by
  -- the pattern is the same, so it is the image alone that is moved
  have hset : ∀ {κ : Kind} (places : List (Option (Key κ))) (i : Nat) (image : Key κ),
      (places.map (·.map (σ.keys κ))).set i (some (σ.key image))
        = (places.set i (some image)).map (·.map (σ.keys κ)) := fun {κ} places i image =>
    (List.map_set (f := fun place : Option (Key κ) => place.map (σ.keys κ)) (a := some image)).symm
  cases e with
  | node key =>
    dsimp only [Occurrence.extensions]
    rw [h.nodeCandidates, List.filter_map, List.map_map, List.map_map,
      show s'.nodeFits phase (a.rekeyed σ.keys) key ∘ σ.key = s.nodeFits phase a key from
        funext (h.nodeFits phase a key)]
    refine List.map_congr_left fun image _ => ?_
    exact congrArg (fun nodes => { a.rekeyed σ.keys with nodes }) (hset a.nodes key.index image)
  | arc key =>
    dsimp only [Occurrence.extensions]
    rw [h.arcCandidates, List.filter_map, List.map_map, List.map_map,
      show s'.arcFits (a.rekeyed σ.keys) key ∘ σ.key = s.arcFits a key from
        funext (h.arcFits a key)]
    refine List.map_congr_left fun image _ => ?_
    exact congrArg (fun arcs => { a.rekeyed σ.keys with arcs }) (hset a.arcs key.index image)
  | hyperarc key =>
    dsimp only [Occurrence.extensions]
    rw [h.hyperarcCandidates, List.filter_map, List.map_map, List.map_map,
      show s'.hyperarcFits (a.rekeyed σ.keys) key ∘ σ.key = s.hyperarcFits a key from
        funext (h.hyperarcFits a key)]
    refine List.map_congr_left fun image _ => ?_
    exact congrArg (fun hyperarcs => { a.rekeyed σ.keys with hyperarcs })
      (hset a.hyperarcs key.index image)

end Relocated

end Occurrence

end GraphGrammar
