import GraphGrammar.RuleOption
import GraphGrammar.Sorting

/-!
# Options that can be applied together

Two options of one host conflict if they consume a common element of it, and
are confluent otherwise. Confluence is symmetric but not transitive, so the
sets of options that can be applied together and cannot be enlarged are the
maximal cliques of the graph in which confluent options are joined.

The cliques are found by the algorithm of Bron and Kerbosch. A call of the
search has a clique, the candidates that may extend it, and the vertices that
may not because the cliques with them were listed before. A pivot saves
branches: a maximal clique contains the pivot or a vertex that is not joined to
it, so only such candidates have to be tried.
-/

namespace GraphGrammar

/-- Whether two options consume no common element. -/
def areConfluent (a b : RuleOption) : Bool := a.toAssignment.disjoint b.toAssignment

/-- The options, each with the numbers of the others that it is confluent
with. -/
def assignConfluence (options : List RuleOption) : List RuleOption :=
  let placed := options.zipIdx
  placed.map fun (option, place) =>
    let others := placed.filter fun (other, otherPlace) =>
      otherPlace != place && areConfluent option other
    { option with confluence := ascending (others.map (·.1.optionNumber)) }

/-! ## The graph of confluent options

Confluence is asked for many pairs many times, so the answers are worked out once. Only one half
of the table is stored, since the relation is symmetric, and the diagonal is left out. -/

/-- An undirected graph without loops on the places of a list. The row of a
place tells which of the earlier places it is joined to. -/
structure ConfluenceGraph where
  rows : Array (Array Bool)

namespace ConfluenceGraph

/-- The graph in which the places of confluent options are joined. -/
def ofOptions (options : List RuleOption) : ConfluenceGraph where
  rows := (options.zipIdx.map fun (option, place) =>
    ((options.take place).map (areConfluent option)).toArray).toArray

/-- Whether two places are joined. -/
def joined (g : ConfluenceGraph) (v w : Nat) : Bool :=
  v != w && ((g.rows[max v w]?.bind (·[min v w]?)).getD false)

theorem joined_self (g : ConfluenceGraph) (v : Nat) : g.joined v v = false := by
  simp [joined]

theorem joined_comm (g : ConfluenceGraph) (v w : Nat) : g.joined v w = g.joined w v := by
  unfold joined
  rw [Nat.max_comm, Nat.min_comm, bne_comm]

/-- The vertices of a list that a vertex is joined to. -/
def neighbors (g : ConfluenceGraph) (v : Nat) (vertices : List Nat) : List Nat :=
  vertices.filter (g.joined v)

/-- A vertex is none of its neighbors. -/
theorem length_neighbors_lt (g : ConfluenceGraph) {v : Nat} {vertices : List Nat}
    (hv : v ∈ vertices) : (g.neighbors v vertices).length < vertices.length :=
  List.length_filter_lt_length_iff_exists.2 ⟨v, hv, by simp [joined_self]⟩

/-- The vertices of a list other than one. -/
def without (vertices : List Nat) (v : Nat) : List Nat := vertices.filter (· != v)

theorem length_without_lt {v : Nat} {vertices : List Nat} (hv : v ∈ vertices) :
    (without vertices v).length < vertices.length :=
  List.length_filter_lt_length_iff_exists.2 ⟨v, hv, by simp⟩

/-! ## Maximal cliques

The search extends a clique by the candidates one at a time and keeps the vertices that have been
tried already as excluded. A clique that an excluded vertex could still enlarge was found before,
in a larger one, so nothing is listed there. -/

/-- The vertex of a list that is joined to the most candidates, the last one if
there are several. -/
def pivot? (g : ConfluenceGraph) (candidates : List Nat) : List Nat → Option Nat
  | [] => none
  | v :: rest =>
    match g.pivot? candidates rest with
    | none => some v
    | some w =>
      if (g.neighbors w candidates).length < (g.neighbors v candidates).length then some v
      else some w

/-- Whether the search has to try a candidate: those joined to the pivot are
passed over. -/
def isBranch (g : ConfluenceGraph) (pivot : Option Nat) (v : Nat) : Bool :=
  !pivot.any (g.joined · v)

mutual

/-- The maximal cliques that consist of a clique and some of the candidates. A
clique that an excluded vertex could extend is none of them. -/
def cliquesFrom (g : ConfluenceGraph) (clique candidates excluded : List Nat) : List (List Nat) :=
  if candidates.isEmpty then if excluded.isEmpty then [clique] else []
  else
    let pivot := g.pivot? candidates (ascending (candidates ++ excluded))
    g.cliquesBeside pivot clique candidates excluded
termination_by (candidates.length, 1)

/-- Those of the cliques in which some candidate is not joined to the pivot.
The first such candidate is put into the clique, and is excluded afterwards. -/
def cliquesBeside (g : ConfluenceGraph) (pivot : Option Nat)
    (clique candidates excluded : List Nat) : List (List Nat) :=
  match _hfound : candidates.find? (g.isBranch pivot) with
  | none => []
  | some v =>
    g.cliquesFrom (insertNumber v clique) (g.neighbors v candidates) (g.neighbors v excluded)
      ++ g.cliquesBeside pivot clique (without candidates v) (insertNumber v excluded)
termination_by (candidates.length, 0)
decreasing_by
  · exact .left _ _ (g.length_neighbors_lt (List.mem_of_find?_eq_some _hfound))
  · exact .left _ _ (length_without_lt (List.mem_of_find?_eq_some _hfound))

end

end ConfluenceGraph

/-! ## Maximal confluent sets

The graph speaks of places in the list of options, and the answer is told by their numbers. -/

/-- Larger sets first, sets of one size in lexicographic order. -/
def setOrder (a b : List Nat) : Bool :=
  b.length < a.length || (a.length == b.length && !List.lex b a (· < ·))

/-- The numbers of the options at some places of a list, ascending. -/
def numbersAt (options : List RuleOption) (places : List Nat) : List Nat :=
  ascending (places.filterMap fun place => options[place]?.map (·.optionNumber))

/-- Every maximal set of pairwise confluent options, as the ascending list of
their numbers. -/
def maximalConfluentSets (options : List RuleOption) : List (List Nat) :=
  if options.isEmpty then []
  else
    let cliques :=
      (ConfluenceGraph.ofOptions options).cliquesFrom [] (List.range options.length) []
    sortBy setOrder (cliques.map (numbersAt options))

end GraphGrammar
