import GraphGrammar.Proofs.Storage

/-!
# Candidates that are saved and read again

A candidate is stored with its graph described by name and its recipe as it stands, keys and
all. The graph that is read has no empty slots, so an element of it has the slot that is its
place among the live elements of its kind. The keys in the recipe are not moved along. What
is under a key of the recipe in the graph that was saved is thus under the rank of the key
in the graph that is read, and under the key itself only if no slot before it was empty
(`read_saved_candidate`).

The graph is stored by names and the recipe by keys, and the two do not fit together if slots are
empty. The theorem says what a key of the recipe means after reading, element by element, and so
it also says when nothing is lost: if no slot is empty before it.
-/

namespace GraphGrammar

open Attributed

/-! ## Slots and places

A live key has two numbers, its slot and its place among the live keys. Compaction makes the
place the slot. The two agree for the keys before the first empty slot. -/

namespace Registry

variable {κ : Kind} {α : Type} {r : Registry κ α} {key : Key κ}

/-- A live key is the slot at its place. -/
theorem slotAt_rank (h : r.contains key = true) : r.slotAt (r.rank key).index = key.index := by
  obtain ⟨place, hlt, rfl⟩ := List.getElem_of_mem (mem_keys_iff.2 h)
  have hplace := r.rank_slotAt ⟨place⟩
  rw [slotAt_of_lt hlt] at hplace
  rw [show r.rank r.keys[place] = ⟨place⟩ from hplace, slotAt_of_lt hlt]

/-- A slot at a place among the live ones is not empty. -/
theorem contains_slotAt {place : Nat} (h : place < r.keys.length) :
    r.contains ⟨r.slotAt place⟩ = true := by
  rw [slotAt_of_lt h]
  exact mem_keys_iff.1 (List.getElem_mem h)

/-- **A live key is its own place just if no slot before it is empty.**

The slots of the live keys go up with their places, and the slot at a place is never below it. So
if a key is its own place, there is no room for a gap before it. -/
theorem rank_eq_self_iff (h : r.contains key = true) :
    r.rank key = key ↔ ∀ earlier : Key κ, earlier.index < key.index →
      r.contains earlier = true := by
  have hmono : StrictMono r.slotAt := slotAt_strictMono
  have hle : ∀ place, place ≤ r.slotAt place := fun place =>
    Nat.le_trans (Nat.le_add_right ..) (hmono.add_le_nat place 0)
  have hplace : (r.rank key).index < r.keys.length := by
    refine Nat.lt_of_not_le fun hle => ?_
    obtain ⟨i, hi⟩ := Nat.le.dest hle
    have hslot := slotAt_rank h
    rw [← hi, slotAt_add] at hslot
    exact Nat.not_lt_of_le (Nat.le_add_right ..) (hslot ▸ lt_of_contains h)
  constructor
  · intro hself earlier hearlier
    have hslot : r.slotAt key.index = key.index := by
      have hkey := slotAt_rank h
      rwa [hself] at hkey
    -- between a place and a later one that is its own slot there is no room for a gap
    have hgap : key.index - earlier.index + r.slotAt earlier.index ≤ r.slotAt key.index := by
      have hadd := hmono.add_le_nat (key.index - earlier.index) earlier.index
      rwa [Nat.sub_add_cancel (Nat.le_of_lt hearlier)] at hadd
    have hearlierLe := hle earlier.index
    have hearlierSlot : r.slotAt earlier.index = earlier.index := by omega
    have halive : r.contains (⟨r.slotAt earlier.index⟩ : Key κ) = true :=
      contains_slotAt (Nat.lt_trans hearlier (hself ▸ hplace))
    rwa [hearlierSlot] at halive
  · intro hall
    have hslots : ∀ n ≤ key.index, r.slotAt n = n := by
      intro n
      induction n using Nat.strongRecOn with
      | ind n ih =>
        intro hn
        have halive : r.contains (⟨n⟩ : Key κ) = true := by
          rcases Nat.lt_or_eq_of_le hn with hlt | heq
          · exact hall ⟨n⟩ hlt
          · subst heq
            exact h
        have hslot : r.slotAt (r.rank ⟨n⟩).index = n := slotAt_rank halive
        rcases Nat.lt_trichotomy (r.rank ⟨n⟩).index n with hlt | heq | hgt
        · -- an earlier place is its own slot and not this one
          rw [ih _ hlt (Nat.le_trans (Nat.le_of_lt hlt) hn)] at hslot
          exact absurd hslot (Nat.ne_of_lt hlt)
        · rwa [heq] at hslot
        · exact absurd (Nat.le_trans (hle _) (Nat.le_of_eq hslot)) (Nat.not_le_of_lt hgt)
    have hslot := r.rank_slotAt key
    rwa [hslots key.index (Nat.le_refl _)] at hslot

variable [Attributed α]

/-- What is under a live key of a registry, seen from the copy of its elements in slots
without gaps. -/
theorem nameOf_compacted [Connected α] {σ : Relocation} {copy : Registry κ α} {f : α → α}
    (hcopy : copy.Relocated σ r) (hslot : σ.slot κ = r.slotAt) (hindexed : Graph.Indexed copy)
    (hf : ∀ a, nameOf (f a) = nameOf a) {a : α} (ha : r.get? key = some a) :
    ((copy.mapElements f).get? (r.rank key)).map nameOf = some (nameOf a) ∧
      (((copy.mapElements f).get? key).map nameOf = some (nameOf a) ↔
        ∀ earlier : Key κ, earlier.index < key.index → r.contains earlier = true) := by
  have halive := contains_iff.2 ⟨a, ha⟩
  have hplace : ((copy.mapElements f).get? (r.rank key)).map nameOf = some (nameOf a) := by
    have hkey : σ.key (r.rank key) = key := by
      have hindex := (congrFun hslot (r.rank key).index).trans (slotAt_rank halive)
      exact congrArg Key.mk hindex
    have hfinds := hcopy.finds (r.rank key)
    rw [hkey, ha] at hfinds
    obtain ⟨b, hb, rfl⟩ := Option.map_eq_some_iff.1 hfinds.symm
    rw [get?_mapElements, hb]
    exact congrArg some ((hf b).trans (σ.nameOf_move b).symm)
  refine ⟨hplace, Iff.trans ⟨fun hself => ?_, fun hself => ?_⟩ (rank_eq_self_iff halive)⟩
  · -- no two elements of the copy have one name
    obtain ⟨b, hb, hbname⟩ := Option.map_eq_some_iff.1 hplace
    obtain ⟨c, hc, hcname⟩ := Option.map_eq_some_iff.1 hself
    exact (hindexed.mapElements hf).key_eq_of_nameOf_eq hb hc (hbname.trans hcname.symm)
  · rwa [hself] at hplace

end Registry

/-! ## Candidates

Numbers are stored in words of a fixed size, so a candidate is read back if its numbers fit. This
is a condition on the candidate and has nothing to do with what the numbers mean. -/

/-- The name of the element under a key, if it is alive. -/
def Graph.nameUnder (g : Graph) : (κ : Kind) → Key κ → Option Name
  | .node, key => (g.node? key).map (·.name)
  | .arc, key => (g.arc? key).map (·.name)
  | .hyperarc, key => (g.hyperarc? key).map (·.name)

/-- What is under a live key of a graph, seen from the graph that is read after it was
stored. -/
theorem Graph.nameUnder_copy_tidied {g : Graph} (h : g.WellFormed) {κ : Kind} {key : Key κ}
    {name : Name} (hkey : g.nameUnder κ key = some name) :
    g.copy.tidied.nameUnder κ (g.rank κ key) = some name ∧
      (g.copy.tidied.nameUnder κ key = some name ↔
        ∀ earlier : Key κ, earlier.index < key.index → (g.nameUnder κ earlier).isSome = true) := by
  have hsame := relocated_copy h
  have hcopy := wellFormed_copy h.members_distinct
  cases κ with
  | node =>
    obtain ⟨node, hnode, rfl⟩ := Option.map_eq_some_iff.1 hkey
    simp only [nameUnder, Option.isSome_map]
    exact Registry.nameOf_compacted hsame.nodes rfl hcopy.nodes_indexed (f := Node.tidied)
      (fun _ => rfl) hnode
  | arc =>
    obtain ⟨arc, harc, rfl⟩ := Option.map_eq_some_iff.1 hkey
    simp only [nameUnder, Option.isSome_map]
    exact Registry.nameOf_compacted hsame.arcs rfl hcopy.arcs_indexed (f := Arc.tidied)
      (fun _ => rfl) harc
  | hyperarc =>
    obtain ⟨hyperarc, hhyperarc, rfl⟩ := Option.map_eq_some_iff.1 hkey
    simp only [nameUnder, Option.isSome_map]
    exact Registry.nameOf_compacted hsame.hyperarcs rfl hcopy.hyperarcs_indexed
      (f := HyperArc.tidied) (fun _ => rfl) hhyperarc

/-- The numbers of a candidate fit the words they are stored in. -/
structure Candidate.Fits (candidate : Candidate) : Prop where
  recipe : ∀ step ∈ candidate.recipe, step.Fits
  generation : candidate.generation < UInt64.size

/-- A candidate that is stored and read has its graph compacted. -/
theorem Candidate.read_of {candidate : Candidate} (h : candidate.graph.WellFormed)
    (hfits : candidate.Fits) :
    Stored.read? (Document.of candidate)
      = some { candidate with graph := candidate.graph.copy.tidied } := by
  have hgraph : Fields.required [("graph", Document.of candidate.graph),
      ("recipe", .of candidate.recipe), ("generation", .of candidate.generation),
      ("performance", .of candidate.performance)] "graph"
        = some candidate.graph.copy.tidied := Graph.read_of h
  refine bind_eq_some_of rfl <| bind_eq_some_of hgraph <|
    bind_eq_some_of (Fields.required_eq_some rfl (.list fun step hstep => ?_)) <|
    bind_eq_some_of (Fields.required_eq_some rfl (.nat hfits.generation)) <|
    bind_eq_some_of (Fields.required_eq_some rfl (.floats _)) rfl
  exact (hfits.recipe step hstep).survives

/-- **A candidate that is saved can be read again, with its recipe as it was.** What was
under a live key is then under the place of the key among the live ones, and still under the
key itself just if no slot before it was empty. -/
theorem read_saved_candidate {candidate : Candidate} (h : candidate.graph.WellFormed)
    (hfits : candidate.Fits) :
    ∃ back : Candidate, Stored.read? (Document.of candidate) = some back ∧
      back.recipe = candidate.recipe ∧ back.generation = candidate.generation ∧
      back.performance = candidate.performance ∧
      ∀ (κ : Kind) (key : Key κ) (name : Name), candidate.graph.nameUnder κ key = some name →
        back.graph.nameUnder κ (candidate.graph.rank κ key) = some name ∧
          (back.graph.nameUnder κ key = some name ↔
            ∀ earlier : Key κ, earlier.index < key.index →
              (candidate.graph.nameUnder κ earlier).isSome = true) :=
  ⟨_, Candidate.read_of h hfits, rfl, rfl, rfl,
    fun _ _ _ hkey => Graph.nameUnder_copy_tidied h hkey⟩

/-- A candidate whose recipe speaks of the node that is left of an edge. -/
def Candidate.ofDanglingEdge : Candidate where
  graph := .danglingEdge
  recipe := [{
    ruleSetIndex := 0, ruleNumber := 0, optionNumber := 0, ruleName := "look"
    nodes := [⟨1⟩], arcs := [], hyperarcs := [] }]

/-- Its numbers are small. -/
theorem Candidate.ofDanglingEdge_fits : Candidate.ofDanglingEdge.Fits where
  recipe step hstep := by
    rw [List.mem_singleton.1 hstep]
    exact ⟨by decide, by decide, by decide, by decide, nofun, nofun⟩
  generation := by decide

/-- The node that is left has the second slot when the candidate is saved and the first one
when it is read. -/
theorem read_saved_candidate_danglingEdge :
    ∃ back : Candidate, Stored.read? (Document.of Candidate.ofDanglingEdge) = some back ∧
      back.recipe = Candidate.ofDanglingEdge.recipe ∧
      Graph.danglingEdge.nameUnder .node ⟨1⟩ = some "b" ∧
      back.graph.nameUnder .node ⟨0⟩ = some "b" := by
  obtain ⟨back, hread, hrecipe, -, -, hkeys⟩ :=
    read_saved_candidate Graph.danglingEdge_wellFormed Candidate.ofDanglingEdge_fits
  have hname : Graph.danglingEdge.nameUnder .node ⟨1⟩ = some "b" := by decide +kernel
  have hrank : Graph.danglingEdge.rank .node ⟨1⟩ = ⟨0⟩ := by decide +kernel
  exact ⟨back, hread, hrecipe, hname, hrank ▸ (hkeys .node ⟨1⟩ "b" hname).1⟩

/-- So a key of the recipe may be lost. -/
theorem saved_candidate_loses_key :
    Candidate.ofDanglingEdge.graph.WellFormed ∧
      (∃ step ∈ Candidate.ofDanglingEdge.recipe, (⟨1⟩ : NodeKey) ∈ step.nodes) ∧
      Candidate.ofDanglingEdge.graph.hasNode ⟨1⟩ = true ∧
      ∃ back : Candidate, Stored.read? (Document.of Candidate.ofDanglingEdge) = some back ∧
        back.graph.hasNode ⟨1⟩ = false := by
  refine ⟨Graph.danglingEdge_wellFormed, ⟨_, List.mem_singleton_self _, List.mem_singleton_self _⟩,
    by decide +kernel, _, Candidate.read_of Graph.danglingEdge_wellFormed
      Candidate.ofDanglingEdge_fits, by decide +kernel⟩

end GraphGrammar
