import Std.Data.TreeSet.Lemmas
import GraphGrammar.Proofs.Adjacency

/-!
# The tables of a host

A host has the tables that every graph has, and a set of the pairs of neighbours beside them. An arc
brings up a neighbour if the pair is new to the set, where the tables of a pattern look whether the
neighbour is in the list. The two tests agree as long as lists and set do (`Surroundings.Paired`),
and one arc after another they stay in agreement. So the set makes no difference to the lists
(`toAdjacency_ofGraph`), and it has the pairs that some arc joins (`joined_ofGraph_iff`).

With this the search may be reasoned about as if it asked the lists. The set is there for speed:
whether two nodes are joined is asked for every candidate.
-/

namespace GraphGrammar

instance : Std.TransCmp comparePairs :=
  inferInstanceAs (Std.TransCmp (compareLex (compareOn _) (compareOn _)))

instance : Std.LawfulEqCmp comparePairs where
  eq_of_compare h := by
    obtain ⟨hfst, hsnd⟩ := Ordering.then_eq_eq.1 h
    exact Prod.ext (congrArg Key.mk (Std.LawfulEqCmp.eq_of_compare hfst))
      (congrArg Key.mk (Std.LawfulEqCmp.eq_of_compare hsnd))

namespace Surroundings

open Adjacency (Sized)

variable {slots : Nat} {t : Surroundings} {a b c d : NodeKey}

/-! ## The pairs

The set of pairs is symmetric because both orders of a pair are put in. -/

/-- At first nobody is joined. -/
theorem joined_blank (slots : Nat) (a b : NodeKey) : (blank slots).joined a b = false :=
  Std.TreeSet.contains_emptyc

/-- A pair that is put in is joined, and otherwise nothing changes. -/
theorem joined_addPair :
    (t.addPair a b).joined c d = true ↔ t.joined c d = true ∨ (a = c ∧ b = d) := by
  unfold addPair
  split
  · rename_i hold
    refine ⟨.inl, fun h => h.elim id ?_⟩
    rintro ⟨rfl, rfl⟩
    exact hold
  · show (t.pairs.insert (a, b)).contains (c, d) = true ↔ _
    rw [Std.TreeSet.contains_insert, Bool.or_eq_true, beq_iff_eq,
      Std.LawfulEqCmp.compare_eq_iff_eq, Prod.mk.injEq, or_comm]
    rfl

/-- An arc brings up its pair both ways round, unless it dangles. That of a loop is not new the
second time. -/
theorem addArc_cases (t : Surroundings) (key : ArcKey) (arc : Arc) :
    (∃ source target, arc.source = some source ∧ arc.target = some target ∧
      t.addArc (key, arc) = ((t.addEnds key arc).addPair source target).addPair target source ∧
      t.toAdjacency.addArc (key, arc)
        = ((t.toAdjacency.addEnds key arc).addNeighbor source target).addNeighbor target source) ∨
    ((∀ a b, ¬ arc.Joins a b) ∧ t.addArc (key, arc) = t.addEnds key arc ∧
      t.toAdjacency.addArc (key, arc) = t.toAdjacency.addEnds key arc) := by
  unfold addArc Adjacency.addArc
  dsimp only
  split
  · rename_i source target hsource htarget
    refine .inl ⟨source, target, hsource, htarget, ?_, rfl⟩
    split
    · rename_i heq
      subst heq
      exact (if_pos (joined_addPair.2 (.inr ⟨rfl, rfl⟩))).symm
    · rfl
  · rename_i hdangling
    refine .inr ⟨fun a b hjoins => ?_, rfl, rfl⟩
    rcases hjoins with ⟨hsource, htarget⟩ | ⟨hsource, htarget⟩
    · exact hdangling a b hsource htarget
    · exact hdangling b a hsource htarget

/-- An arc joins the nodes at its ends. -/
theorem joined_addArc (entry : ArcKey × Arc) :
    (t.addArc entry).joined a b = true ↔ t.joined a b = true ∨ entry.2.Joins a b := by
  rcases t.addArc_cases entry.1 entry.2 with
    ⟨source, target, hsource, htarget, hadd, -⟩ | ⟨hdangling, hadd, -⟩
  · rw [hadd, joined_addPair, joined_addPair, or_assoc, Arc.Joins, hsource, htarget,
      Option.some.injEq,
      Option.some.injEq, Option.some.injEq, Option.some.injEq, and_comm (a := target = a)]
    rfl
  · rw [hadd, or_iff_left (hdangling a b)]
    rfl

/-- All arcs together join the nodes at their ends. -/
theorem joined_foldl_addArc (arcs : List (ArcKey × Arc)) :
    (arcs.foldl addArc t).joined a b = true ↔
      t.joined a b = true ∨ ∃ entry ∈ arcs, entry.2.Joins a b := by
  induction arcs generalizing t with
  | nil => simp
  | cons entry rest ih =>
    rw [List.foldl_cons, ih, joined_addArc, or_assoc]
    simp only [List.mem_cons, exists_eq_or_imp]

/-- **Two nodes are joined if an arc joins them**, whichever way it points. -/
theorem joined_ofGraph_iff {g : Graph} :
    (ofGraph g).joined a b = true ↔ ∃ key arc, g.arc? key = some arc ∧ arc.Joins a b := by
  show (g.arcs.entries.foldl addArc (blank _)).joined a b = true ↔ _
  rw [joined_foldl_addArc, joined_blank]
  constructor
  · rintro (h | ⟨entry, hentry, hjoins⟩)
    · exact absurd h Bool.false_ne_true
    · exact ⟨entry.1, entry.2, Registry.mem_entries_iff.1 hentry, hjoins⟩
  · rintro ⟨key, arc, harc, hjoins⟩
    exact .inr ⟨(key, arc), Registry.mem_entries_iff.2 harc, hjoins⟩

/-! ## The lists

The invariant is that the set and the lists agree. While it holds, looking into the set decides
the same as looking into a list would. -/

/-- **The set has the pairs that the lists have.** Pairs are asked of slots that the tables have.
-/
structure Paired (slots : Nat) (t : Surroundings) : Prop where
  sized : Sized slots t.toAdjacency
  joined_iff : ∀ a b, a.index < slots → (t.joined a b = true ↔ b ∈ t.neighbors a)

/-- At first there are no pairs in either. -/
theorem paired_blank : Paired slots (blank slots) where
  sized := .blank
  joined_iff a b ha := by
    rw [joined_blank, show (blank slots).neighbors a = [] from (Adjacency.blank_at ha).2.2]
    exact iff_of_false Bool.false_ne_true List.not_mem_nil

/-- The set tells what the list would have told. -/
theorem Paired.toAdjacency_addPair (h : Paired slots t) (a b : NodeKey) :
    (t.addPair a b).toAdjacency = t.addNeighbor a b := by
  have hknown : ∀ known, t.neighborhoods[a.index]? = some known →
      known.contains b = t.joined a b := by
    intro known hknown
    have ha : a.index < slots := h.sized.neighborhoods ▸ (List.getElem?_eq_some_iff.1 hknown).1
    rw [Bool.eq_iff_iff, List.contains_iff_mem, h.joined_iff a b ha, Adjacency.neighbors, hknown]
    rfl
  unfold addPair Adjacency.addNeighbor
  split
  · rename_i hold
    have hsame : t.neighborhoods.modify a.index
        (fun known => if known.contains b then known else known ++ [b]) = t.neighborhoods := by
      refine (Adjacency.modify_congr fun known hat => ?_).trans (List.modify_id a.index _)
      rw [hknown known hat, if_pos hold, id]
    rw [hsame]
  · rename_i hnew
    refine congrArg (fun lists => { t.toAdjacency with neighborhoods := lists }) ?_
    refine Adjacency.modify_congr fun known hat => ?_
    rw [hknown known hat, if_neg hnew]

/-- A pair is put into both or into neither. -/
theorem Paired.addPair (h : Paired slots t) (a b : NodeKey) : Paired slots (t.addPair a b) where
  sized := by
    rw [h.toAdjacency_addPair]
    exact h.sized.addNeighbor a b
  joined_iff c d hc := by
    rw [joined_addPair, h.toAdjacency_addPair, Adjacency.mem_neighbors_addNeighbor h.sized hc,
      h.joined_iff c d hc]

/-- Entering the ends of an arc puts in no pair. -/
theorem Paired.addEnds (h : Paired slots t) (key : ArcKey) (arc : Arc) :
    Paired slots (t.addEnds key arc) where
  sized := h.sized.addEnds key arc
  joined_iff c d hc := by
    rw [show (t.addEnds key arc).neighbors c = t.neighbors c from
      (Adjacency.addEnds_at h.sized hc key arc).2.2]
    exact h.joined_iff c d hc

/-- One arc. -/
theorem Paired.addArc (h : Paired slots t) (entry : ArcKey × Arc) :
    Paired slots (t.addArc entry) ∧ (t.addArc entry).toAdjacency = t.toAdjacency.addArc entry := by
  have hends := h.addEnds entry.1 entry.2
  rcases t.addArc_cases entry.1 entry.2 with
    ⟨source, target, -, -, hadd, hadd'⟩ | ⟨-, hadd, hadd'⟩
  · have hforth := hends.addPair source target
    rw [hadd, hadd']
    refine ⟨hforth.addPair target source, ?_⟩
    rw [hforth.toAdjacency_addPair, hends.toAdjacency_addPair]
    rfl
  · rw [hadd, hadd']
    exact ⟨hends, rfl⟩

/-- All of them. -/
theorem Paired.foldl_addArc (h : Paired slots t) (arcs : List (ArcKey × Arc)) :
    (arcs.foldl Surroundings.addArc t).toAdjacency
      = arcs.foldl Adjacency.addArc t.toAdjacency := by
  induction arcs generalizing t with
  | nil => rfl
  | cons entry rest ih =>
    obtain ⟨hafter, hadd⟩ := h.addArc entry
    rw [List.foldl_cons, List.foldl_cons, ih hafter, hadd]

/-- **A host has the tables that every graph has.** -/
theorem toAdjacency_ofGraph (g : Graph) : (ofGraph g).toAdjacency = .ofGraph g := by
  show g.hyperarcs.elements.foldl Adjacency.addHyperArc
    (g.arcs.entries.foldl addArc (blank _)).toAdjacency = _
  rw [paired_blank.foldl_addArc]
  rfl

end Surroundings

end GraphGrammar
