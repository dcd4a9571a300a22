import GraphGrammar.Proofs.Connecting
import GraphGrammar.Proofs.Repair

/-!
# Which names are kept

Names are made distinct when a description is connected and when the names of a graph are
repaired. Every later bearer of a repeated name is renamed, and the first one keeps it as a
rule (`names_kept_or_taken`). The exception is a name that is itself a numbering: it may have
been given to an earlier element that repeated the name it numbers, and then its bearer is
renamed although no other element had its name (`lone_name_taken`). Whatever refers to the
name, as the conditions of a rule do, is about the earlier element then.
-/

namespace GraphGrammar

/-- **What becomes of names that are made distinct.** The names before are given as a function,
since they may be those of a graph or of a description. -/
structure Registry.KeepsNames {κ : Kind} {α : Type} [Attributed α] (r : Registry κ α)
    (before : Key κ → Option Name) : Prop where
  /-- A name is kept just if no element before bears it by then. -/
  kept_iff : ∀ key name, before key = some name →
    (r.nameUnder key = some name ↔ ¬ BorneBefore r.nameUnder key name)
  /-- The first bearer of a name keeps it, if the name is not a numbering of a name before. -/
  first_keeps : ∀ key name, before key = some name →
    (∀ earlier : Key κ, earlier.index < key.index → before earlier ≠ some name ∧
      ∀ base number, before earlier = some base → name ≠ numbered base number) →
    r.nameUnder key = some name
  /-- The later bearers of a name are renamed. -/
  later_renamed : ∀ key name, before key = some name → BorneBefore before key name →
    r.nameUnder key ≠ some name
  /-- A name that is not kept is borne by an element before, which had it already or got it as
  the numbering of a name that it repeated. -/
  taken : ∀ key name, before key = some name → r.nameUnder key ≠ some name →
    ∃ earlier : Key κ, earlier.index < key.index ∧ r.nameUnder earlier = some name ∧
      (before earlier = some name ∨ ∃ base number, before earlier = some base ∧
        BorneBefore r.nameUnder earlier base ∧ name = numbered base number)
  /-- A name leads to the element that bears it in the end. -/
  found_iff : ∀ key name, r.find? name = some key ↔ r.nameUnder key = some name

/-- What names given in turn are like, with the answer to who has taken a name away put in terms
of the registry that holds the elements afterwards. -/
theorem NamesInTurn.keepsNames {κ : Kind} {α : Type} [Attributed α] {r : Registry κ α}
    {before : Key κ → Option Name} (h : NamesInTurn before r.nameUnder)
    (hindexed : Graph.Indexed r) : r.KeepsNames before where
  kept_iff _ _ := h.kept_iff
  first_keeps _ _ := h.eq_of_first
  later_renamed key name hkey hborne := by
    obtain ⟨earlier, hlt, hearlier⟩ := hborne
    exact h.ne_of_repeated hkey hearlier hlt
  taken _ _ := h.exists_of_ne
  found_iff key name := (hindexed name key).trans Option.map_eq_some_iff.symm

/-- **Repairing names and connecting descriptions keep the names that are not taken.** This is
so for the elements of each kind in any graph whose names are repaired, and for the arcs and the
hyperarcs of any description that is connected. -/
theorem names_kept_or_taken (g : Graph) (d : GraphDescription) :
    (∀ κ, (g.repairNames.1.registry κ).KeepsNames (g.registry κ).nameUnder) ∧
      ∀ connected, d.connect = .ok connected →
        connected.arcs.KeepsNames (fun key => d.arcs[key.index]?.map (·.name)) ∧
          connected.hyperarcs.KeepsNames (fun key => d.hyperarcs[key.index]?.map (·.name)) := by
  constructor
  · intro κ
    rw [Graph.registry_repairNames]
    exact (g.registry κ).namedInTurn_repair.names.keepsNames (g.registry κ).indexed_repair
  · intro connected hconnect
    obtain ⟨⟨hnodup, hreferences⟩, rfl⟩ := GraphDescription.connect_eq_ok_iff.1 hconnect
    have hdescribed := GraphDescription.describes_connected hnodup hreferences
    exact ⟨hdescribed.arcNames.keepsNames hdescribed.wellFormed.arcs_indexed,
      hdescribed.hyperarcNames.keepsNames hdescribed.wellFormed.hyperarcs_indexed⟩

/-- Two arcs of one name before an arc of which the name is the first numbering of it. -/
def GraphDescription.threeArcs : GraphDescription where
  arcs := [{ name := "e" }, { name := "e" }, { name := "e_1" }]

/-- The same with nodes, the second of which was replaced behind the index. -/
def Graph.replacedNode : Graph where
  nodes := (Registry.ofElements [{ name := "n" }, { name := "m" }, { name := "n_1" }]).modify ⟨1⟩
    fun node => { node with name := "n" }

/-- No other element has the name of the last one, and yet it is not kept. A condition for an arc
of that name is a condition on the second arc. The pass goes by slots, so the name was given away
before its bearer was reached. -/
theorem lone_name_taken :
    (∃ g, GraphDescription.threeArcs.connect = .ok g ∧
      g.arcs.elements.map (·.name) = ["e", "e_1", "e_1_1"] ∧
      (RuleDraft.conditionsOf g.arcs (.ofList [("e_1", { negative := true })])).map
        (fun condition : ArcCondition => condition.negative) = [false, true, false]) ∧
      Graph.replacedNode.nodes.elements.map (·.name) = ["n", "n", "n_1"] ∧
      Graph.replacedNode.repairNames.1.nodes.elements.map (·.name) = ["n", "n_1", "n_1_1"] ∧
      Graph.replacedNode.repairNames.1.nodes.find? "n_1" = some ⟨1⟩ := by
  refine ⟨⟨GraphDescription.threeArcs.connected, ?_, by decide +kernel, by decide +kernel⟩,
    by decide +kernel, by decide +kernel, by decide +kernel⟩
  exact GraphDescription.connect_eq_ok (by decide) (by decide)

end GraphGrammar
