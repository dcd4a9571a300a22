import GraphGrammar.Proofs.EditStep
import GraphGrammar.Proofs.Pattern

/-!
# Histories of edits

A graph that was edited in any way, starting from nothing, keeps its invariant: an edit is refused
and changes nothing, or it leaves the graph well formed (`EditHistory.Sound.step`). The edits are
those in place, and the history takes over whatever graph they leave behind, so a refused edit is
trusted with the graph like any other.

Along with the graph the keys are put down that were issued to new elements and those of elements
that were removed. From these books one can read which keys are alive, and that no key was ever
issued twice: those of a kind are issued in the order of their numbers and without gaps, so a slot
that became empty is not filled again. The books are not part of the graph. They are there because
"never issued before" speaks of the past, of which the graph keeps nothing but the number of its
slots; that the two agree is the invariant that the induction carries (`EditHistory.Sound`).
-/

namespace GraphGrammar

open Attributed

/-- A graph with the keys that were issued and those that were made void, in the order in which
this happened. What the books are about is the keys of all kinds together, each marked with its
kind; those of one kind are taken out of them (`issuedOf`, `removedOf`). -/
structure EditHistory where
  graph : Graph := .empty
  issued : List Ref := []
  removed : List Ref := []

namespace EditHistory

/-- The keys of a kind that were issued. -/
def issuedOf (s : EditHistory) (κ : Kind) : List (Key κ) := s.issued.filterMap (·.key? κ)

/-- The keys of a kind that were made void. -/
def removedOf (s : EditHistory) (κ : Kind) : List (Key κ) := s.removed.filterMap (·.key? κ)

/-- Performs one more edit in place. The history goes on with the graph that the edit leaves
behind, refused or not, and puts down the keys of an edit that is not refused. -/
def step (s : EditHistory) (e : Edit) : EditHistory :=
  let performance := s.graph.perform e
  match performance.result with
  | .error _ => { s with graph := performance.graph }
  | .ok keys =>
    { graph := performance.graph
      issued := s.issued ++ keys.issued.toList
      removed := s.removed ++ keys.removed.toList }

/-- The history of some edits of the graph without elements. -/
def ofEdits (edits : List Edit) : EditHistory := edits.foldl step {}

/-- The graph is well formed and the books are right. The last clause ties the books to the
graph. Without it `removed_issued` could not be carried through a removal: that the key of what is
removed was issued is known because the element is alive. -/
structure Sound (s : EditHistory) : Prop where
  wellFormed : s.graph.WellFormed
  /-- The keys were issued in the order of their numbers, and without gaps. -/
  issued_eq : ∀ κ, s.issuedOf κ = (List.range (s.graph.registry κ).cells.length).map Key.mk
  /-- Only keys that were issued became void. -/
  removed_issued : ∀ κ, s.removedOf κ ⊆ s.issuedOf κ
  /-- A key is alive from when it is issued to when it is made void. -/
  alive_iff : ∀ κ (key : Key κ), (s.graph.registry κ).contains key = true ↔
    key ∈ s.issuedOf κ ∧ key ∉ s.removedOf κ

variable {s : EditHistory} {e : Edit}

/-- A refused edit does not make history: the graph that it leaves behind is the one it found. -/
theorem step_of_error {failure : Report GraphError}
    (h : (s.graph.perform e).result = .error failure) : s.step e = s := by
  unfold step
  simp only [h, Graph.graph_perform_of_error h]

/-- An edit that is not refused is put down with the graph that it leaves behind. -/
theorem step_of_ok {keys : Edit.Keys} (h : (s.graph.perform e).result = .ok keys) :
    s.step e = ⟨(s.graph.perform e).graph, s.issued ++ keys.issued.toList,
      s.removed ++ keys.removed.toList⟩ := by
  unfold step
  simp only [h]

/-- What is put down for a kind is put down behind what was. -/
theorem filterMap_append_toList (κ : Kind) (refs : List Ref) (ref : Option Ref) :
    (refs ++ ref.toList).filterMap (·.key? κ)
      = refs.filterMap (·.key? κ) ++ (ref.bind (·.key? κ)).toList := by
  rw [List.filterMap_append]
  cases ref with
  | none => rfl
  | some ref =>
    show _ ++ [ref].filterMap (·.key? κ) = _ ++ (ref.key? κ).toList
    rw [List.filterMap_cons]
    cases ref.key? κ <;> rfl

namespace Sound

/-- The history without edits: no key was issued, and none is alive. -/
theorem start : Sound {} where
  wellFormed := .empty
  issued_eq κ := by cases κ <;> rfl
  removed_issued _ := List.nil_subset _
  alive_iff κ key := by cases κ <;> exact ⟨nofun, fun h => nomatch h.1⟩

/-- A key that was not issued yet was not made void either. -/
theorem nextKey_notMem (h : s.Sound) (κ : Kind) :
    (s.graph.registry κ).nextKey ∉ s.issuedOf κ ∧ (s.graph.registry κ).nextKey ∉ s.removedOf κ := by
  have hissued : (s.graph.registry κ).nextKey ∉ s.issuedOf κ := by
    rw [h.issued_eq, List.mem_map]
    rintro ⟨i, hi, heq⟩
    have hindex : i = (s.graph.registry κ).cells.length := congrArg Key.index heq
    exact (List.mem_range.1 hi).ne hindex
  exact ⟨hissued, fun hmem => hissued (h.removed_issued κ hmem)⟩

/-- **One edit keeps the graph well formed and the books right.** A refused edit leaves the graph
and the books alone. Any other keeps the graph well formed, and for each kind the books gain the
key that it issues and the key that it makes void: the former is the next one, the latter was
alive. -/
theorem step (h : s.Sound) (e : Edit) : (s.step e).Sound := by
  cases hperform : (s.graph.perform e).result with
  | error failure => rwa [step_of_error hperform]
  | ok keys =>
    rw [step_of_ok hperform]
    have hdone := Graph.performed_of_outcome h.wellFormed (Graph.outcome_of_ok hperform)
    have hissued : ∀ κ, List.filterMap (·.key? κ) (s.issued ++ keys.issued.toList)
        = s.issuedOf κ ++ (keys.issuedOf κ).toList := fun κ => filterMap_append_toList ..
    have hremoved : ∀ κ, List.filterMap (·.key? κ) (s.removed ++ keys.removed.toList)
        = s.removedOf κ ++ (keys.removedOf κ).toList := fun κ => filterMap_append_toList ..
    constructor
    · exact hdone.wellFormed
    · intro κ
      refine (hissued κ).trans ?_
      rw [h.issued_eq, (hdone.edited κ).slots]
      cases hkey : keys.issuedOf κ with
      | none => exact List.append_nil _
      | some key =>
        rw [((hdone.edited κ).of_issued hkey).1]
        simp [List.range_succ, Registry.nextKey]
    · intro κ key hmem
      change key ∈ List.filterMap _ _ at hmem
      show key ∈ List.filterMap _ _
      rw [hremoved, List.mem_append] at hmem
      rw [hissued, List.mem_append]
      rcases hmem with hmem | hmem
      · exact .inl (h.removed_issued κ hmem)
      · have halive := (hdone.edited κ).contains_of_removed (Option.mem_toList.1 hmem)
        exact .inl ((h.alive_iff κ key).1 halive).1
    · intro κ key
      show _ ↔ key ∈ List.filterMap _ _ ∧ key ∉ List.filterMap _ _
      rw [(hdone.edited κ).contains_iff, hissued, hremoved, List.mem_append, List.mem_append,
        h.alive_iff, Option.mem_toList, Option.mem_toList, not_or]
      constructor
      · rintro ⟨⟨hmem, hkept⟩ | hnew, hnow⟩
        · exact ⟨.inl hmem, hkept, hnow⟩
        · -- a key that is new was not made void before
          have hnext := ((hdone.edited κ).of_issued hnew).1
          exact ⟨.inr hnew, hnext ▸ (h.nextKey_notMem κ).2, hnow⟩
      · rintro ⟨hmem | hnew, hkept, hnow⟩
        · exact ⟨.inl ⟨hmem, hkept⟩, hnow⟩
        · exact ⟨.inr hnew, hnow⟩

/-- **So does a history.** -/
theorem ofEdits (edits : List Edit) : (ofEdits edits).Sound :=
  List.foldlRecOn edits EditHistory.step start fun _ h e _ => h.step e

end Sound

/-- What an edit does to a history, if it is not refused: it leaves every other key
to its element, and a key that it issues is greater than all that were issued
before. -/
structure Extends (s : EditHistory) (e : Edit) (keys : Edit.Keys) (after : Graph) : Prop where
  /-- An element that is not removed stays under its key, and nothing becomes of it
  but what the edit says. -/
  keeps : ∀ κ (key : Key κ) a, (s.graph.registry κ).get? key = some a →
    keys.removedOf κ ≠ some key → (after.registry κ).get? key = some (e.onElement κ key a)
  /-- A new key finds the element that was given, under a name that was free. -/
  new : ∀ κ (key : Key κ), keys.issuedOf κ = some key →
    (∀ earlier ∈ s.issuedOf κ, earlier.index < key.index) ∧
    ∃ a, e.given κ = some a ∧ (after.registry κ).get? key
      = some (renamed a (uniqueName (s.graph.registry κ).names (nameOf a)))

/-- How an edit that is not refused extends the books. That a new key is greater than all earlier
ones needs the books: the graph knows only that it is the number of its slots. -/
theorem Sound.extends (h : s.Sound) {keys : Edit.Keys}
    (hperform : (s.graph.perform e).result = .ok keys) :
    s.Extends e keys (s.graph.perform e).graph := by
  have hdone := Graph.performed_of_outcome h.wellFormed (Graph.outcome_of_ok hperform)
  refine ⟨fun κ key a ha hkept => (hdone.edited κ).finds ha hkept, fun κ key hkey => ?_⟩
  obtain ⟨hnext, hfinds⟩ := (hdone.edited κ).of_issued hkey
  refine ⟨fun earlier hearlier => ?_, hfinds⟩
  rw [h.issued_eq, List.mem_map] at hearlier
  obtain ⟨i, hi, rfl⟩ := hearlier
  rw [hnext]
  exact List.mem_range.1 hi

/-- **The invariant of graphs is kept by all edits, and keys are for life.**
Whatever edits led from the graph without elements to a graph:

* it is well formed and passes its own check;
* within each kind the names are distinct and the elements are counted right;
* the keys of each kind were issued in the order of their numbers and without gaps,
  and those are alive that were not made void since;
* a further edit in place is refused, and then the graph that it leaves behind is the one it
  found and the history does not go on, or every element that it does not remove keeps its
  key. -/
theorem invariant_of_edits (edits : List Edit) :
    let s := ofEdits edits
    s.graph.WellFormed ∧ s.graph.validate = .ok () ∧
    (∀ κ, ((s.graph.registry κ).elements.map nameOf).Nodup ∧
      (s.graph.registry κ).count = (s.graph.registry κ).keys.length ∧
      (s.issuedOf κ).map Key.index = List.range (s.graph.registry κ).cells.length ∧
      ∀ key, (s.graph.registry κ).contains key = true ↔
        key ∈ s.issuedOf κ ∧ key ∉ s.removedOf κ) ∧
    ∀ e, (∃ failure, s.graph.perform e = ⟨s.graph, .error failure⟩ ∧ s.step e = s) ∨
      ∃ keys after, s.graph.perform e = ⟨after, .ok keys⟩ ∧ (s.step e).graph = after ∧
        s.Extends e keys after := by
  intro s
  have h : s.Sound := Sound.ofEdits edits
  refine ⟨h.wellFormed, Graph.validate_eq_ok h.wellFormed, fun κ => ?_, fun e => ?_⟩
  · have hindexed := h.wellFormed.indexed κ
    refine ⟨hindexed.nodup_names_elements, hindexed.count_eq, ?_, h.alive_iff κ⟩
    rw [h.issued_eq, List.map_map]
    exact List.map_id _
  -- a procedure that fails has written nothing, as all its questions come before what it writes
  · cases hperform : (s.graph.perform e).result with
    | error failure =>
      have hgraph := Graph.graph_perform_of_error hperform
      exact .inl ⟨failure, congrArg₂ Edit.Performance.mk hgraph hperform, step_of_error hperform⟩
    | ok keys =>
      have hdone : s.graph.perform e = ⟨(s.graph.perform e).graph, .ok keys⟩ :=
        congrArg (Edit.Performance.mk _) hperform
      have hgraph : (s.step e).graph = (s.graph.perform e).graph := by rw [step_of_ok hperform]
      exact .inr ⟨keys, _, hdone, hgraph, h.extends hperform⟩

/-- A slot that became empty is not filled again. -/
example : ((ofEdits [.addNode { name := "a" }, .addNode { name := "b" }, .removeNode ⟨0⟩,
    .addNodeUnique { name := "b" }]).issuedOf .node).map Key.index = [0, 1, 2] := by
  decide +kernel

end EditHistory

end GraphGrammar
