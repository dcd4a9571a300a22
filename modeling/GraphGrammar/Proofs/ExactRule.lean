import GraphGrammar.Equivalence
import GraphGrammar.Proofs.Compaction
import GraphGrammar.Proofs.Isomorphism
import GraphGrammar.Proofs.Pattern
import GraphGrammar.Proofs.SharedContext

/-!
# The exact rule of a graph

The rule by which a graph is looked for with nothing missing and nothing beside it is
built for every well formed graph: a context can always be derived
(`Context.derive_eq`), and each condition is for an element that is there. What comes
of it is a rule whose L is the copy of the graph and whose conditions are the strictest
ones (`Equivalence.exists_build`).

The rule serves the comparison of graphs and is never applied, so it has the graph on both sides
and keeps all of it.
-/

namespace GraphGrammar

open Attributed

/-! ## Conditions by name

A draft gives its conditions by name, and the names of a well-formed graph are distinct. So each
condition that is made from an element comes back to this element. -/

namespace NameMap

variable {β : Type}

/-- Entries with distinct names are all found again. No entry takes the place of another one,
since none comes with a name that is there already. -/
theorem find?_ofList {entries : List (Name × β)} (hnodup : (entries.map Prod.fst).Nodup)
    {name : Name} {value : β} : (ofList entries).find? name = some value ↔
      (name, value) ∈ entries := by
  -- the induction is on the entries that are left; the map so far has none of their names
  have hfold : ∀ (entries : List (Name × β)) (m : NameMap β), (entries.map Prod.fst).Nodup →
      (∀ entry ∈ entries, m.find? entry.1 = none) →
      ((entries.foldl (fun m e => m.insert e.1 e.2) m).find? name = some value ↔
        m.find? name = some value ∨ (name, value) ∈ entries) := by
    intro entries
    induction entries with
    | nil => exact fun m _ _ => (or_iff_left List.not_mem_nil).symm
    | cons first rest ih =>
      intro m hnodup hfree
      rw [List.map_cons, List.nodup_cons] at hnodup
      have hrest : ∀ entry ∈ rest, (m.insert first.1 first.2).find? entry.1 = none := by
        intro entry hentry
        have hne : entry.1 ≠ first.1 := fun heq => hnodup.1 (heq ▸ List.mem_map_of_mem hentry)
        rw [find?_insert, if_neg hne]
        exact hfree entry (List.mem_cons_of_mem _ hentry)
      rw [List.foldl_cons, ih _ hnodup.2 hrest, find?_insert, List.mem_cons, ← or_assoc]
      refine or_congr_left ?_
      split
      · rename_i hname
        rw [hname, hfree first List.mem_cons_self]
        exact ⟨fun h => .inr (Prod.ext rfl (Option.some.inj h).symm),
          fun h => h.elim nofun fun heq => congrArg (fun e => some e.2) heq.symm⟩
      · rename_i hname
        exact (or_iff_left fun heq => hname (congrArg Prod.fst heq)).symm
  have hempty := hfold entries .empty hnodup fun _ _ => rfl
  exact hempty.trans (or_iff_right nofun)

end NameMap

namespace Equivalence

variable {κ : Kind} {α γ : Type} [Attributed α] {elements : Registry κ α} {condition : α → γ}

/-- The names under which conditions are given are the names of the elements. -/
theorem fst_conditions (condition : α → γ) (elements : List α) :
    (elements.map fun a => (nameOf a, condition a)).map Prod.fst = elements.map nameOf := by
  rw [List.map_map]
  rfl

/-- Every condition is for an element. -/
theorem checkTargets_conditions (h : Graph.Indexed elements) :
    RuleDraft.checkTargets elements (conditions condition elements.elements) = .ok () := by
  have hnodup := fst_conditions condition elements.elements ▸ h.nodup_names_elements
  unfold RuleDraft.checkTargets
  rw [List.find?_eq_none.2 fun name hname => ?_]
  obtain ⟨value, hvalue⟩ := NameMap.contains_iff.1 (NameMap.mem_names_iff.1 hname)
  obtain ⟨a, ha, heq⟩ := List.mem_map.1 ((NameMap.find?_ofList hnodup).1 hvalue)
  obtain ⟨key, hkey⟩ := Registry.mem_elements_iff.1 ha
  cases heq
  rw [h.find?_eq_some hkey]
  exact Bool.false_ne_true

/-- Each element gets the condition that was made for it. -/
theorem conditionsOf_conditions [Inhabited γ] (h : Graph.Indexed elements) :
    RuleDraft.conditionsOf elements (conditions condition elements.elements)
      = elements.elements.map condition := by
  have hnodup := fst_conditions condition elements.elements ▸ h.nodup_names_elements
  refine List.map_congr_left fun a ha => ?_
  rw [conditions, (NameMap.find?_ofList hnodup).2 (List.mem_map.2 ⟨a, ha, rfl⟩)]
  rfl

end Equivalence

/-! ## Contexts

A context is refused if it would keep something negative. In a rule without negative elements
there is no such reason. -/

namespace Context

/-- Elements of which none is negative can be related. -/
theorem exists_relate {κ : Kind} {α : Type} [Attributed α] (l k r : Registry κ α)
    {negative : Key κ → Bool} (h : ∀ key, negative key = false) :
    ∃ c, relate l k r negative = .ok c := by
  have hsteps : ∃ c, relate l k r negative = .ok c ∧ True := by
    refine foldlM_succeeds (P := fun _ => True) (fun related a _ _ => ?_) trivial
    split
    · rw [h, if_neg Bool.false_ne_true]
      exact ⟨_, rfl, trivial⟩
    · exact ⟨_, rfl, trivial⟩
  obtain ⟨c, hc, -⟩ := hsteps
  exact ⟨c, hc⟩

end Context

/-! ## The rule -/

/-- A rule that looks for a graph with nothing missing and nothing beside it. It lists what the
matches depend on; the right-hand side of the rule is not looked at. -/
structure GrammarRule.Exacts (rule : GrammarRule) (l : Graph) : Prop where
  coherent : rule.Coherent
  l_eq : rule.l = l
  nodeConditions : rule.nodeConditions = l.nodes.elements.map Equivalence.nodeCondition
  arcConditions : rule.arcConditions = l.arcs.elements.map Equivalence.arcCondition
  hyperarcConditions :
    rule.hyperarcConditions = l.hyperarcs.elements.map Equivalence.hyperarcCondition
  settings : rule.toRuleSettings =
    { containsAllGlobalLabels := true, induced := true, spanning := true }

namespace Equivalence

/-- If no condition that is made is negative, none is found. -/
theorem any_negative_map {α γ : Type} (toCondition : γ → Condition) (condition : α → γ)
    (h : ∀ a, (toCondition (condition a)).negative = false) (elements : List α) (i : Nat) :
    (elements.map condition)[i]?.any (fun c => (toCondition c).negative) = false := by
  rw [List.getElem?_map]
  cases elements[i]? with
  | none => rfl
  | some a => exact h a

/-- **The exact rule of a well formed graph is built.** Its L is the copy of the graph. Each step
of building is gone through: no condition is negative, so nothing is refused on that account, and
the context is derived and refused for nothing either. -/
theorem exists_build {g : Graph} (h : g.WellFormed) :
    ∃ rule, (exactDraft g).build = .ok rule ∧ rule.Exacts g.copy := by
  have hcopy := g.compact_copy
  have hl := Graph.wellFormed_copy h.members_distinct
  have hsame := Graph.relocated_copy h
  have hdistinct : (exactDraft g).MembersDistinct :=
    ⟨hl.members_distinct, hl.members_distinct, nofun⟩
  -- the conditions are the same whether they are made for the graph or for its copy
  have hnodes : (exactDraft g).nodeConditions = conditions nodeCondition g.copy.nodes.elements := by
    show conditions nodeCondition g.nodes.elements = _
    rw [hsame.nodes.elements, conditions, List.map_map]
    rfl
  have harcs : (exactDraft g).arcConditions = conditions arcCondition g.copy.arcs.elements := by
    show conditions arcCondition g.arcs.elements = _
    rw [hsame.arcs.elements, conditions, List.map_map]
    rfl
  have hhyperarcs : (exactDraft g).hyperarcConditions
      = conditions hyperarcCondition g.copy.hyperarcs.elements := by
    show conditions hyperarcCondition g.hyperarcs.elements = _
    rw [hsame.hyperarcs.elements, conditions, List.map_map]
    rfl
  have hnegativeNode := fun key : NodeKey => any_negative_map NodeCondition.toCondition
    nodeCondition (fun _ => rfl) g.copy.nodes.elements key.index
  have hnegativeArc := fun key : ArcKey => any_negative_map ArcCondition.toCondition
    arcCondition (fun _ => rfl) g.copy.arcs.elements key.index
  have hnegativeHyperArc := fun key : HyperArcKey => any_negative_map HyperArcCondition.toCondition
    hyperarcCondition (fun _ => rfl) g.copy.hyperarcs.elements key.index
  obtain ⟨k, hk⟩ : ∃ k, Context.derive g.copy g.copy = .ok k := ⟨_, Context.derive_eq _ _⟩
  obtain ⟨contextNodes, hcontextNodes⟩ :=
    Context.exists_relate g.copy.nodes k.nodes g.copy.nodes hnegativeNode
  obtain ⟨contextArcs, hcontextArcs⟩ :=
    Context.exists_relate g.copy.arcs k.arcs g.copy.arcs hnegativeArc
  obtain ⟨contextHyperArcs, hcontextHyperArcs⟩ :=
    Context.exists_relate g.copy.hyperarcs k.hyperarcs g.copy.hyperarcs hnegativeHyperArc
  let rule : GrammarRule :=
    { (exactDraft g).toRuleSettings with
      name := (exactDraft g).name
      l := g.copy
      k, r := g.copy
      nodeConditions := g.copy.nodes.elements.map nodeCondition
      arcConditions := g.copy.arcs.elements.map arcCondition
      hyperarcConditions := g.copy.hyperarcs.elements.map hyperarcCondition
      contextNodes, contextArcs, contextHyperArcs }
  have hbuild : (exactDraft g).build = .ok rule := by
    refine Outcome.note_eq_ok_iff.2 ?_
    unfold RuleDraft.assemble
    rw [hnodes, harcs, hhyperarcs, show (exactDraft g).l = g.copy from rfl,
      show (exactDraft g).r = g.copy from rfl, Graph.validate_eq_ok hl,
      Graph.copy_eq_self hcopy hl]
    dsimp only
    rw [conditionsOf_conditions hl.nodes_indexed, conditionsOf_conditions hl.arcs_indexed,
      conditionsOf_conditions hl.hyperarcs_indexed]
    simp only [bind_eq_ok_iff]
    exact ⟨(), rfl, (), rfl, (), checkTargets_conditions hl.nodes_indexed, (),
      checkTargets_conditions hl.arcs_indexed, (), checkTargets_conditions hl.hyperarcs_indexed, (),
      RuleDraft.checkAttached_eq_ok hnegativeNode, (), RuleDraft.checkAttached_eq_ok hnegativeNode,
      k, hk, contextNodes, hcontextNodes, contextArcs, hcontextArcs, contextHyperArcs,
      hcontextHyperArcs, (), rfl, rfl⟩
  exact ⟨rule, hbuild, (RuleDraft.coherent_of_build hdistinct hbuild).1, rfl, rfl, rfl, rfl, rfl⟩

end Equivalence

end GraphGrammar
