import Mathlib.Data.List.Sort
import GraphGrammar.Confluence

/-!
# The search finds each maximal clique once

A call of the search has a clique, candidates and excluded vertices. It is
after the cliques that consist of the clique and candidates and that no
candidate and no excluded vertex extends (`Completes`). Trying a candidate
splits these in two: the cliques with it are those that the call inside is
after, and the cliques without it are those that are left when it is excluded
(`completes_enter_iff`, `completes_leave_iff`). So nothing is listed twice.

The candidates that are joined to the pivot are never tried. Nothing is lost by
that: a clique made of such candidates alone could be extended by the pivot
(`Completes.exists_isBranch`).

All of this rests on what the calls keep (`Frontier`): candidates and excluded
vertices are joined to the whole of the clique.

The vertices are numbers, and cliques are ascending lists of them. That makes two cliques with
the same vertices equal, so that a maximal clique is one list and can be listed once.
-/

namespace GraphGrammar

namespace ConfluenceGraph

variable {g : ConfluenceGraph} {clique candidates excluded found vertices : List Nat} {v w : Nat}

/-- The neighbours among some vertices are those that are joined. -/
theorem mem_neighbors : w ∈ g.neighbors v vertices ↔ w ∈ vertices ∧ g.joined v w = true :=
  List.mem_filter

/-- Taking a vertex out of a list takes out this one. -/
theorem mem_without : w ∈ without vertices v ↔ w ∈ vertices ∧ w ≠ v := by
  simp [without]

/-! ## Cliques

The three lists of a call are a clique, the vertices that may still be added, and those that may
be added but whose cliques were listed before. A maximal clique is complete for a call if its
vertices are in the first two lists and nothing in the last two extends it. -/

/-- **An ascending list of vertices any two of which are joined.** Ascending lists are used so
that a set of vertices is one list. -/
structure IsClique (g : ConfluenceGraph) (clique : List Nat) : Prop where
  ascending : clique.Pairwise (· < ·)
  joined : ∀ v ∈ clique, ∀ w ∈ clique, v ≠ w → g.joined v w = true

/-- No vertices at all are a clique, from which the search starts. -/
theorem isClique_nil : g.IsClique [] := ⟨.nil, nofun⟩

/-- A vertex that is joined to the whole of a clique extends it. -/
theorem IsClique.insert (h : g.IsClique clique) (hv : ∀ w ∈ clique, g.joined v w = true) :
    g.IsClique (insertNumber v clique) where
  ascending := pairwise_insertNumber h.ascending
  joined x hx y hy hne := by
    rcases mem_insertNumber.1 hx with rfl | hxmem
    · exact hv y ((mem_insertNumber.1 hy).resolve_left (Ne.symm hne))
    · rcases mem_insertNumber.1 hy with rfl | hymem
      · exact (g.joined_comm x y).trans (hv x hxmem)
      · exact h.joined x hxmem y hymem hne

/-- **The cliques that a call of the search is after.** It has the whole of the clique, it is
made of it and of candidates, and no candidate and no excluded vertex could be added. -/
structure Completes (g : ConfluenceGraph) (clique candidates excluded found : List Nat) : Prop where
  isClique : g.IsClique found
  contains : ∀ v ∈ clique, v ∈ found
  made_of : ∀ v ∈ found, v ∈ clique ∨ v ∈ candidates
  maximal : ∀ v, v ∈ candidates ∨ v ∈ excluded → v ∉ found → ∃ w ∈ found, g.joined v w = false

/-- **What the calls of the search keep.** From it follows that adding a candidate gives a clique
again. -/
structure Frontier (g : ConfluenceGraph) (clique candidates excluded : List Nat) : Prop where
  isClique : g.IsClique clique
  joined : ∀ v, v ∈ candidates ∨ v ∈ excluded → ∀ w ∈ clique, g.joined v w = true

namespace Frontier

/-- At the start every vertex may be added. -/
theorem start (g : ConfluenceGraph) (vertices : List Nat) : g.Frontier [] vertices [] :=
  ⟨isClique_nil, fun _ _ => nofun⟩

/-- A vertex that may be added is not in the clique. -/
theorem notMem (h : g.Frontier clique candidates excluded)
    (hv : v ∈ candidates ∨ v ∈ excluded) : v ∉ clique := fun hmem =>
  Bool.false_ne_true ((g.joined_self v).symm.trans (h.joined v hv v hmem))

/-- In the branch of a candidate, the lists are cut down to its neighbours. That is what keeps
them joined to the whole of the clique. -/
theorem enter (h : g.Frontier clique candidates excluded) (hv : v ∈ candidates) :
    g.Frontier (insertNumber v clique) (g.neighbors v candidates) (g.neighbors v excluded) where
  isClique := h.isClique.insert (h.joined v (.inl hv))
  joined x hx w hw := by
    have hx : (x ∈ candidates ∨ x ∈ excluded) ∧ g.joined v x = true := by
      rw [mem_neighbors, mem_neighbors] at hx
      exact ⟨hx.imp And.left And.left, hx.elim And.right And.right⟩
    rcases mem_insertNumber.1 hw with rfl | hw
    · exact (g.joined_comm x w).trans hx.2
    · exact h.joined x hx.1 w hw

/-- After its branch a candidate is excluded. -/
theorem leave (h : g.Frontier clique candidates excluded) (hv : v ∈ candidates) :
    g.Frontier clique (without candidates v) (insertNumber v excluded) where
  isClique := h.isClique
  joined x hx := by
    rw [mem_without, mem_insertNumber] at hx
    rcases hx with ⟨hx, -⟩ | rfl | hx
    · exact h.joined x (.inl hx)
    · exact h.joined x (.inl hv)
    · exact h.joined x (.inr hx)

end Frontier

/-! ## Branches

A candidate divides the cliques of a call in two, those with it and those without. So nothing is
listed twice, and nothing but what the pivot makes superfluous is left out. -/

/-- **Inside the branch of a candidate are the cliques with it.** Candidates and excluded
vertices that are not joined to the vertex drop out of the branch, and this loses nothing: a
clique with the vertex has no such candidate, and cannot be enlarged by such an excluded vertex.
-/
theorem completes_enter_iff (hv : v ∈ candidates) :
    g.Completes (insertNumber v clique) (g.neighbors v candidates) (g.neighbors v excluded) found ↔
      g.Completes clique candidates excluded found ∧ v ∈ found := by
  constructor
  · intro hfound
    have hmem : v ∈ found := hfound.contains v (mem_insertNumber.2 (.inl rfl))
    refine ⟨⟨hfound.isClique, fun w hw => hfound.contains w (mem_insertNumber.2 (.inr hw)),
      fun w hw => ?_, fun w hw hnot => ?_⟩, hmem⟩
    · rcases hfound.made_of w hw with hw | hw
      · exact (mem_insertNumber.1 hw).elim (fun heq => .inr (heq ▸ hv)) .inl
      · exact .inr (mem_neighbors.1 hw).1
    · cases hjoined : g.joined v w with
      | false => exact ⟨v, hmem, (g.joined_comm w v).trans hjoined⟩
      | true =>
        refine hfound.maximal w ?_ hnot
        exact hw.imp (mem_neighbors.2 ⟨·, hjoined⟩) (mem_neighbors.2 ⟨·, hjoined⟩)
  · rintro ⟨hfound, hmem⟩
    refine ⟨hfound.isClique, fun w hw => ?_, fun w hw => ?_, fun w hw => hfound.maximal w ?_⟩
    · exact (mem_insertNumber.1 hw).elim (fun heq => heq ▸ hmem) (hfound.contains w)
    · rw [mem_insertNumber, mem_neighbors, or_assoc]
      by_cases heq : w = v
      · exact .inl heq
      · exact .inr ((hfound.made_of w hw).imp_right
          (⟨·, hfound.isClique.joined v hmem w hw (Ne.symm heq)⟩))
    · exact hw.imp (fun hw => (mem_neighbors.1 hw).1) fun hw => (mem_neighbors.1 hw).1

section

variable (h : g.Frontier clique candidates excluded)

include h

/-- **Behind the branch of a candidate are the cliques without it.** -/
theorem completes_leave_iff (hv : v ∈ candidates) :
    g.Completes clique (without candidates v) (insertNumber v excluded) found ↔
      g.Completes clique candidates excluded found ∧ v ∉ found := by
  constructor
  · intro hfound
    have hnot : v ∉ found := fun hmem =>
      (hfound.made_of v hmem).elim (h.notMem (.inl hv)) fun hmem => (mem_without.1 hmem).2 rfl
    refine ⟨⟨hfound.isClique, hfound.contains, fun w hw => ?_, fun w hw => ?_⟩, hnot⟩
    · exact (hfound.made_of w hw).imp_right fun hw => (mem_without.1 hw).1
    · refine hfound.maximal w ?_
      rw [mem_without, mem_insertNumber]
      by_cases heq : w = v
      · exact .inr (.inl heq)
      · exact hw.imp (⟨·, heq⟩) .inr
  · rintro ⟨hfound, hnot⟩
    refine ⟨hfound.isClique, hfound.contains, fun w hw => ?_, fun w hw => hfound.maximal w ?_⟩
    · exact (hfound.made_of w hw).imp_right
        fun hcandidate => mem_without.2 ⟨hcandidate, fun heq => hnot (heq ▸ hw)⟩
    · rw [mem_without, mem_insertNumber] at hw
      rcases hw with ⟨hw, -⟩ | rfl | hw
      · exact .inl hw
      · exact .inl hv
      · exact .inr hw

/-- Where no candidate is left, the clique itself is all there may be. -/
theorem completes_nil_iff (hnil : candidates = []) :
    g.Completes clique candidates excluded found ↔ excluded = [] ∧ found = clique := by
  subst hnil
  constructor
  · intro hfound
    have hmem : ∀ w, w ∈ found ↔ w ∈ clique := fun w =>
      ⟨fun hw => (hfound.made_of w hw).resolve_right List.not_mem_nil, hfound.contains w⟩
    refine ⟨List.eq_nil_iff_forall_not_mem.2 fun v hv => ?_, ?_⟩
    · obtain ⟨w, hw, hjoined⟩ :=
        hfound.maximal v (.inr hv) fun hmem' => h.notMem (.inr hv) ((hmem v).1 hmem')
      rw [h.joined v (.inr hv) w ((hmem w).1 hw)] at hjoined
      exact nomatch hjoined
    · exact hfound.isClique.ascending.eq_of_mem_iff h.isClique.ascending hmem
  · rintro ⟨rfl, rfl⟩
    exact ⟨h.isClique, fun _ => id, fun _ => .inl, fun v hv => nomatch hv⟩

/-- **A vertex that may be added is not joined to some candidate of the clique**,
which is itself if the clique has it. -/
theorem Completes.exists_unjoined (hfound : g.Completes clique candidates excluded found)
    (hv : v ∈ candidates ∨ v ∈ excluded) :
    ∃ w ∈ found, w ∈ candidates ∧ g.joined v w = false := by
  by_cases hmem : v ∈ found
  · exact ⟨v, hmem, (hfound.made_of v hmem).resolve_left (h.notMem hv), g.joined_self v⟩
  · obtain ⟨w, hw, hjoined⟩ := hfound.maximal v hv hmem
    refine ⟨w, hw, (hfound.made_of w hw).resolve_left fun hclique => ?_, hjoined⟩
    exact Bool.false_ne_true (hjoined.symm.trans (h.joined v hv w hclique))

/-- **The candidates joined to the pivot are not enough**: a clique has some other
candidate, because the pivot could extend it otherwise. -/
theorem Completes.exists_isBranch (hfound : g.Completes clique candidates excluded found)
    {pivot : Option Nat} (hpivot : ∀ u, pivot = some u → u ∈ candidates ∨ u ∈ excluded)
    (hcandidates : candidates ≠ []) :
    ∃ v ∈ found, v ∈ candidates ∧ g.isBranch pivot v = true := by
  cases pivot with
  | none =>
    obtain ⟨v, hv⟩ := List.exists_mem_of_ne_nil candidates hcandidates
    obtain ⟨w, hw, hcandidate, -⟩ := hfound.exists_unjoined h (.inl hv)
    exact ⟨w, hw, hcandidate, rfl⟩
  | some u =>
    obtain ⟨w, hw, hcandidate, hjoined⟩ := hfound.exists_unjoined h (hpivot u rfl)
    exact ⟨w, hw, hcandidate, by simpa [isBranch] using hjoined⟩

end

/-! ## The search

The recursion is on the candidates in the order in which they are tried. There are two functions
that call each other, one for a call and one for the branches beside a pivot, and so each fact is
shown of both. -/

/-- A pivot is one of the vertices it is chosen from. -/
theorem mem_of_pivot? :
    {vertices : List Nat} → g.pivot? candidates vertices = some v → v ∈ vertices
  | [], h => nomatch h
  | u :: rest, h => by
    unfold pivot? at h
    split at h
    · exact Option.some.inj h ▸ List.mem_cons_self
    · rename_i w hw
      split at h
      · exact Option.some.inj h ▸ List.mem_cons_self
      · exact List.mem_cons_of_mem _ (mem_of_pivot? (hw.trans h))

mutual

/-- **The search lists the cliques it is after.** -/
theorem mem_cliquesFrom_iff {clique candidates excluded found : List Nat}
    (h : g.Frontier clique candidates excluded) :
    found ∈ g.cliquesFrom clique candidates excluded ↔
      g.Completes clique candidates excluded found := by
  unfold cliquesFrom
  split
  · rename_i hempty
    rw [completes_nil_iff h (List.isEmpty_iff.1 hempty)]
    split
    · rename_i hexcluded
      rw [List.mem_singleton, and_iff_right (List.isEmpty_iff.1 hexcluded)]
    · rename_i hexcluded
      exact iff_of_false List.not_mem_nil fun hnil => hexcluded (List.isEmpty_iff.2 hnil.1)
  · rename_i hempty
    dsimp only
    rw [mem_cliquesBeside_iff h, and_iff_left_of_imp fun hfound => ?_]
    refine hfound.exists_isBranch h (fun u hu => ?_) fun hnil => hempty (List.isEmpty_iff.2 hnil)
    exact List.mem_append.1 (mem_ascending.1 (mem_of_pivot? hu))
termination_by (candidates.length, 1)

/-- Beside a pivot it lists those that have a candidate not joined to the pivot. The condition is
on the clique and not on the order of the branches: whichever of its candidates is tried first
leads to it. -/
theorem mem_cliquesBeside_iff {pivot : Option Nat} {clique candidates excluded found : List Nat}
    (h : g.Frontier clique candidates excluded) :
    found ∈ g.cliquesBeside pivot clique candidates excluded ↔
      g.Completes clique candidates excluded found ∧
        ∃ v ∈ found, v ∈ candidates ∧ g.isBranch pivot v = true := by
  unfold cliquesBeside
  split
  · rename_i hnone
    refine iff_of_false List.not_mem_nil fun ⟨_, v, _, hv, hbranch⟩ => ?_
    exact List.find?_eq_none.1 hnone v hv hbranch
  · rename_i v hsome
    have hv : v ∈ candidates := List.mem_of_find?_eq_some hsome
    rw [List.mem_append, mem_cliquesFrom_iff (h.enter hv), mem_cliquesBeside_iff (h.leave hv),
      completes_enter_iff hv, completes_leave_iff h hv]
    constructor
    · rintro (⟨hfound, hmem⟩ | ⟨⟨hfound, -⟩, w, hw, hcandidate, hbranch⟩)
      · exact ⟨hfound, v, hmem, hv, List.find?_some hsome⟩
      · exact ⟨hfound, w, hw, (mem_without.1 hcandidate).1, hbranch⟩
    · rintro ⟨hfound, w, hw, hcandidate, hbranch⟩
      by_cases hmem : v ∈ found
      · exact .inl ⟨hfound, hmem⟩
      · exact .inr ⟨⟨hfound, hmem⟩, w, hw,
          mem_without.2 ⟨hcandidate, fun heq => hmem (heq ▸ hw)⟩, hbranch⟩
termination_by (candidates.length, 0)
decreasing_by
  · exact .left _ _ (g.length_neighbors_lt hv)
  · exact .left _ _ (length_without_lt hv)

end

mutual

/-- **The search lists nothing twice.** -/
theorem nodup_cliquesFrom {clique candidates excluded : List Nat}
    (h : g.Frontier clique candidates excluded) :
    (g.cliquesFrom clique candidates excluded).Nodup := by
  unfold cliquesFrom
  split
  · split
    · exact List.nodup_singleton clique
    · exact .nil
  · exact nodup_cliquesBeside h
termination_by (candidates.length, 1)

/-- Beside a pivot nothing is listed twice either: the branches of different candidates have no
clique in common. -/
theorem nodup_cliquesBeside {pivot : Option Nat} {clique candidates excluded : List Nat}
    (h : g.Frontier clique candidates excluded) :
    (g.cliquesBeside pivot clique candidates excluded).Nodup := by
  unfold cliquesBeside
  split
  · exact .nil
  · rename_i v hsome
    have hv : v ∈ candidates := List.mem_of_find?_eq_some hsome
    refine List.nodup_append.2
      ⟨nodup_cliquesFrom (h.enter hv), nodup_cliquesBeside (h.leave hv), ?_⟩
    -- the cliques of the branch have its vertex, those behind it do not
    rintro found hinside _ hbehind rfl
    rw [mem_cliquesFrom_iff (h.enter hv), completes_enter_iff hv] at hinside
    rw [mem_cliquesBeside_iff (h.leave hv), completes_leave_iff h hv] at hbehind
    exact hbehind.1.2 hinside.2
termination_by (candidates.length, 0)
decreasing_by
  · exact .left _ _ (g.length_neighbors_lt hv)
  · exact .left _ _ (length_without_lt hv)

end

/-! ## Maximal cliques

That the search is not after nothing: a clique can be extended as long as it is not maximal, and
there are only so many vertices. -/

/-- Fewer vertices are outside a clique that has one more. -/
theorem length_notMem_insertNumber_lt (hv : v ∈ vertices) (hnew : v ∉ clique) :
    (vertices.filter (· ∉ insertNumber v clique)).length
      < (vertices.filter (· ∉ clique)).length := by
  have hfewer : vertices.filter (· ∉ insertNumber v clique)
      = without (vertices.filter (· ∉ clique)) v := by
    unfold without
    rw [List.filter_filter]
    refine List.filter_congr fun w _ => ?_
    rw [bne, beq_eq_decide, ← decide_not, ← Bool.decide_and, decide_eq_decide,
      mem_insertNumber, not_or]
  rw [hfewer]
  exact length_without_lt (List.mem_filter.2 ⟨hv, decide_eq_true hnew⟩)

/-- **Every clique is part of a maximal one.** -/
theorem IsClique.exists_completes {clique : List Nat} (h : g.IsClique clique)
    (hvertices : ∀ v ∈ clique, v ∈ vertices) :
    ∃ found, g.Completes [] vertices [] found ∧ ∀ v ∈ clique, v ∈ found := by
  by_cases hmore : ∃ v ∈ vertices, v ∉ clique ∧ ∀ w ∈ clique, g.joined v w = true
  · obtain ⟨v, hv, hnew, hjoined⟩ := hmore
    have hlarger : ∀ w ∈ insertNumber v clique, w ∈ vertices := fun w hw =>
      (mem_insertNumber.1 hw).elim (fun heq => heq ▸ hv) (hvertices w)
    obtain ⟨found, hfound, hmem⟩ := (h.insert hjoined).exists_completes hlarger
    exact ⟨found, hfound, fun w hw => hmem w (mem_insertNumber.2 (.inr hw))⟩
  · refine ⟨clique, ⟨h, nofun, fun v hv => .inr (hvertices v hv), fun v hv hnew => ?_⟩,
      fun _ => id⟩
    by_contra hall
    refine hmore ⟨v, hv.resolve_right List.not_mem_nil, hnew, fun w hw => ?_⟩
    exact Bool.of_not_eq_false fun hfalse => hall ⟨w, hw, hfalse⟩
termination_by (vertices.filter (· ∉ clique)).length
decreasing_by exact length_notMem_insertNumber_lt hv hnew

end ConfluenceGraph

end GraphGrammar
