import GraphGrammar.Proofs.EditStep
import GraphGrammar.Proofs.Naming
import GraphGrammar.Proofs.Redraft

/-!
# Repairing the names of any graph

The elements of a graph can be replaced behind its indices, by others of whatever names, and
the indices may then say anything. Repairing the names makes up for all of it
(`Graph.repairNames_restores`): afterwards the names of a kind are distinct and its index
tells the truth. What is repaired is the same graph but for the names
(`Graph.SameButNames`), the number that is returned counts the names that are others, and
there is nothing left to be repaired.

What a repaired graph can still be refused for by its check is a reference to a node that is
not alive, since these are not looked at.

Nothing is supposed of the graph to begin with: not that an index says anything true, nor that
the names are distinct, nor that what is referred to is alive. This is the state in which a graph
may be after its elements were exchanged one by one, and repairing is the way back. The way back
ends at references, which are made by key. To repair them would be to invent what an arc was
meant to connect.
-/

namespace GraphGrammar

open Attributed

/-! ## The elements of a kind

What a repair leaves is said once for elements of any kind, and what is asked of an element
without a look at its name has the same answer afterwards. -/

namespace Registry

variable {κ : Kind} {α : Type} [Attributed α]

/-- The same elements under the same keys, but for their names. -/
structure SameButNames (before after : Registry κ α) : Prop where
  length_eq : after.cells.length = before.cells.length
  vacant : ∀ key, before.get? key = none → after.get? key = none
  finds : ∀ key a, before.get? key = some a → ∃ name, after.get? key = some (renamed a name)

namespace SameButNames

variable {before after : Registry κ α} (h : SameButNames before after)

include h

/-- What is alive has nothing to do with names. -/
theorem contains_eq (key : Key κ) : after.contains key = before.contains key := by
  unfold contains
  cases ha : before.get? key with
  | none => rw [h.vacant key ha]
  | some a =>
    obtain ⟨name, hname⟩ := h.finds key a ha
    rw [hname]
    rfl

/-- What does not depend on its name holds of an element before just if it does after. -/
theorem exists_get?_iff {P : α → Prop} (hP : ∀ a name, P (renamed a name) ↔ P a) (key : Key κ) :
    (∃ a, after.get? key = some a ∧ P a) ↔ ∃ a, before.get? key = some a ∧ P a := by
  cases ha : before.get? key with
  | none => simp [h.vacant key ha]
  | some a =>
    obtain ⟨name, hname⟩ := h.finds key a ha
    simp [hname, hP]

end SameButNames

/-- Naming in turn leaves everything but the names, and so does a repair. -/
theorem NamedInTurn.sameButNames {before after : Registry κ α} (h : NamedInTurn before after) :
    SameButNames before after where
  length_eq := h.length_eq
  vacant := h.vacant
  finds key a ha := by
    obtain ⟨name, hname, -⟩ := h.finds key a ha
    exact ⟨name, hname⟩

/-- **A repaired registry is indexed**, whatever its index was before. -/
theorem indexed_repair (r : Registry κ α) : Graph.Indexed r.repair.1 :=
  indexed_repairFrom r.cells (empty : Registry κ α) .empty

end Registry

/-! ## The whole graph -/

namespace Graph

/-- The same graph, but for the names of its elements and what the indices say. -/
structure SameButNames (g g' : Graph) : Prop where
  elements : ∀ κ, (g.registry κ).SameButNames (g'.registry κ)
  name : g'.name = g.name
  globalLabels : g'.globalLabels = g.globalLabels
  globalVariables : g'.globalVariables = g.globalVariables

/-- The number of elements of a graph that bear another name in another graph. -/
def renamedIn (g g' : Graph) : Nat :=
  g.nodes.renamedIn g'.nodes + g.arcs.renamedIn g'.arcs + g.hyperarcs.renamedIn g'.hyperarcs

/-- Some end or some member is a node that is not alive. -/
def RefersToDead (g : Graph) : Prop :=
  (∃ key arc, g.arc? key = some arc ∧ ∃ node ∈ arc.ends, g.hasNode node = false) ∨
    ∃ key hyperarc, g.hyperarc? key = some hyperarc ∧
      ∃ node ∈ hyperarc.members, g.hasNode node = false

variable {g g' : Graph}

/-- Each kind is repaired by itself: its names are compared with no other kind's. -/
theorem registry_repairNames (g : Graph) (κ : Kind) :
    g.repairNames.1.registry κ = (g.registry κ).repair.1 := by
  cases κ <;> rfl

/-- Names have nothing to do with what is alive. -/
theorem SameButNames.refersToDead_iff (h : g.SameButNames g') :
    g'.RefersToDead ↔ g.RefersToDead := by
  have halive : g'.hasNode = g.hasNode := funext (h.elements .node).contains_eq
  unfold RefersToDead
  rw [halive]
  refine or_congr (exists_congr fun key => ?_) (exists_congr fun key => ?_)
  · exact (h.elements .arc).exists_get?_iff (fun _ _ => Iff.rfl) key
  · exact (h.elements .hyperarc).exists_get?_iff (fun _ _ => Iff.rfl) key

/-- **With distinct names in the indices, the check looks for dead nodes only.** -/
theorem exists_validate_eq_error_iff (h : ∀ κ, Indexed (g.registry κ)) :
    (∃ failure, g.validate = .error failure) ↔ g.RefersToDead := by
  constructor
  · rintro ⟨failure, hfailure⟩
    by_contra halive
    have hlinked : g.Linked := {
      nodes_indexed := h .node
      arcs_indexed := h .arc
      hyperarcs_indexed := h .hyperarc
      ends_alive := fun key arc harc node hnode => Bool.of_not_eq_false fun hdead =>
        halive (.inl ⟨key, arc, harc, node, hnode, hdead⟩)
      members_alive := fun key hyperarc hh node hnode => Bool.of_not_eq_false fun hdead =>
        halive (.inr ⟨key, hyperarc, hh, node, hnode, hdead⟩) }
    rw [hlinked.validate_eq_ok] at hfailure
    exact nomatch hfailure
  · intro hdead
    cases hvalidate : g.validate with
    | error failure => exact ⟨failure, rfl⟩
    | ok _ =>
      obtain ⟨-, hends, hmembers⟩ := of_validate hvalidate
      obtain ⟨key, arc, harc, node, hnode, hdead⟩ | ⟨key, hyperarc, hh, node, hnode, hdead⟩ := hdead
      · have halive := hends arc (Registry.mem_elements_iff.2 ⟨key, harc⟩) node hnode
        exact absurd halive (by simp [hdead])
      · have halive := hmembers hyperarc (Registry.mem_elements_iff.2 ⟨key, hh⟩) node hnode
        exact absurd halive (by simp [hdead])

/-- **Repairing the names restores them from any state.** Whatever the elements and the
indices of a graph are:

* afterwards the names of each kind are distinct, and its index maps exactly the names of the
  live elements to their keys;
* nothing else is changed;
* the number returned is that of the elements whose names are others;
* a second repair changes nothing and returns zero;
* the check of the graph refuses it just if some end or member is not alive. -/
theorem repairNames_restores (g : Graph) :
    let repaired := g.repairNames.1
    (∀ κ, ((repaired.registry κ).elements.map nameOf).Nodup ∧ Indexed (repaired.registry κ)) ∧
      g.SameButNames repaired ∧
      g.repairNames.2 = g.renamedIn repaired ∧
      repaired.repairNames = (repaired, 0) ∧
      ((∃ failure, repaired.validate = .error failure) ↔ g.RefersToDead) := by
  intro repaired
  have hindexed : ∀ κ, Indexed (repaired.registry κ) := fun κ => by
    rw [registry_repairNames]
    exact (g.registry κ).indexed_repair
  have hsame : g.SameButNames repaired := {
    elements := fun κ => by
      rw [registry_repairNames]
      exact (g.registry κ).namedInTurn_repair.sameButNames
    name := rfl
    globalLabels := rfl
    globalVariables := rfl }
  have hcount : g.repairNames.2 = g.renamedIn repaired := by
    unfold renamedIn
    rw [show repaired.nodes = g.nodes.repair.1 from rfl,
      show repaired.arcs = g.arcs.repair.1 from rfl,
      show repaired.hyperarcs = g.hyperarcs.repair.1 from rfl, ← Registry.renamed_repair,
      ← Registry.renamed_repair, ← Registry.renamed_repair]
    rfl
  exact ⟨fun κ => ⟨(hindexed κ).nodup_names_elements, hindexed κ⟩, hsame, hcount,
    repairNames_of_indexed hindexed,
      (exists_validate_eq_error_iff hindexed).trans hsame.refersToDead_iff⟩

end Graph

end GraphGrammar
