import Mathlib.Data.List.Sort
import GraphGrammar.Proofs.Clique
import GraphGrammar.Proofs.Confluence
import GraphGrammar.Proofs.RuleSet

/-!
# The maximal confluent sets

The sets of options that can be applied together and cannot be enlarged
(`IsMaximalConfluentSet`) are told by the numbers of the options, and the
search for cliques works on their places in the list. As long as the numbers
are distinct a clique and the set of its numbers tell the same
(`completes_iff_isMaximal`), so what the search lists are exactly the maximal
confluent sets; they are sorted then, larger ones first.

Numbers and places are different things, since a list of options may be a part of a longer one
that has been filtered. Confluence is a relation between options, so it can be read off either
way, and with distinct numbers each number has one place.
-/

namespace GraphGrammar

variable {options : List RuleOption} {places set : List Nat} {i j n : Nat} {a b o : RuleOption}

/-! ## What the sets are

A set is the ascending list of its numbers. As there is one such list for each set, listing a set
twice would be listing one list twice. -/

/-- **A set of options that can be applied together**, as the ascending list of their numbers.
The list is of numbers and not of options, as it is handed to a caller. -/
structure IsConfluentSet (options : List RuleOption) (set : List Nat) : Prop where
  ascending : set.Pairwise (· < ·)
  listed : ∀ n ∈ set, ∃ o ∈ options, o.optionNumber = n
  confluent : ∀ a ∈ options, a.optionNumber ∈ set → ∀ b ∈ options, b.optionNumber ∈ set →
    a.optionNumber ≠ b.optionNumber → areConfluent a b = true

/-- **Such a set to which no further option can be added**: every other one
conflicts with an option of the set. -/
structure IsMaximalConfluentSet (options : List RuleOption) (set : List Nat) : Prop
    extends IsConfluentSet options set where
  nonempty : set ≠ []
  maximal : ∀ o ∈ options, o.optionNumber ∉ set →
    ∃ other ∈ options, other.optionNumber ∈ set ∧ areConfluent o other = false

/-- A set is larger than another, or as large and lexicographically smaller. -/
def ComesBefore (a b : List Nat) : Prop := b.length < a.length ∨ a.length = b.length ∧ a < b

/-! ## Places and numbers

The graph on places is the confluence of the options at them. A clique of it is a confluent set
by its numbers, and every confluent set comes from one clique. -/

/-- The numbers of some places are those of the options there. -/
theorem mem_numbersAt :
    n ∈ numbersAt options places ↔
      ∃ place ∈ places, ∃ o, options[place]? = some o ∧ o.optionNumber = n := by
  unfold numbersAt
  simp only [mem_ascending, List.mem_filterMap, Option.map_eq_some_iff]

/-- Options at two places are joined if they are confluent. -/
theorem ConfluenceGraph.joined_ofOptions (ha : options[i]? = some a) (hb : options[j]? = some b)
    (hne : i ≠ j) : (ofOptions options).joined i j = areConfluent a b := by
  -- the row of the later place has the answer
  have hrow : ∀ {i j : Nat} {a b : RuleOption}, options[i]? = some a → options[j]? = some b →
      j < i → (ofOptions options).joined i j = areConfluent a b := by
    intro i j a b ha hb hlt
    simp [joined, ofOptions, Nat.max_eq_left hlt.le, Nat.min_eq_right hlt.le, ha, hb,
      List.getElem?_take_of_lt hlt, Nat.ne_of_gt hlt]
  have hcomm : areConfluent b a = areConfluent a b :=
    Bool.eq_iff_iff.2 ⟨areConfluent_symm, areConfluent_symm⟩
  rcases Nat.lt_or_gt_of_ne hne with hlt | hgt
  · rw [joined_comm, hrow hb ha hlt, hcomm]
  · exact hrow ha hb hgt

section Numbered

variable (hnumbers : (options.map (·.optionNumber)).Nodup)

include hnumbers

/-- A number is at one place only. -/
theorem place_eq_of_optionNumber_eq (ha : options[i]? = some a) (hb : options[j]? = some b)
    (h : a.optionNumber = b.optionNumber) : i = j := by
  have hi : i < (options.map (·.optionNumber)).length :=
    (List.length_map _).symm ▸ (List.getElem?_eq_some_iff.1 ha).1
  refine (List.getElem?_inj hi hnumbers).1 ?_
  rw [List.getElem?_map, List.getElem?_map, ha, hb, Option.map_some, Option.map_some, h]

/-- An option is in a set of numbers exactly when its place is among the places. -/
theorem optionNumber_mem_numbersAt (ho : options[i]? = some o) :
    o.optionNumber ∈ numbersAt options places ↔ i ∈ places := by
  rw [mem_numbersAt]
  constructor
  · rintro ⟨place, hplace, other, hother, hnumber⟩
    exact place_eq_of_optionNumber_eq hnumbers hother ho hnumber ▸ hplace
  · exact fun hi => ⟨i, hi, o, ho, rfl⟩

open ConfluenceGraph in
/-- **A clique is maximal exactly when the set of its numbers is a maximal confluent set.**

Both sides say two things, that the members agree with each other and that whoever is left out
disagrees with a member. What has to be translated is who is a member: a place is in the clique
exactly if the number of the option at it is in the set. -/
theorem completes_iff_isMaximal (hnonempty : options ≠ []) (hascending : places.Pairwise (· < ·))
    (hplaces : ∀ i ∈ places, i < options.length) :
    (ofOptions options).Completes [] (List.range options.length) [] places ↔
      IsMaximalConfluentSet options (numbersAt options places) := by
  have hmem {i : Nat} {o : RuleOption} (ho : options[i]? = some o) :
      o.optionNumber ∈ numbersAt options places ↔ i ∈ places :=
    optionNumber_mem_numbersAt hnumbers ho
  constructor
  · intro hclique
    -- every place may be added at the start, so a maximal clique lacks a neighbour of each other
    -- place
    have hlacks (i : Nat) (hi : i < options.length) (hnot : i ∉ places) :
        ∃ j ∈ places, (ofOptions options).joined i j = false :=
      hclique.maximal i (.inl (List.mem_range.2 hi)) hnot
    refine ⟨⟨pairwise_ascending _, fun n hn => ?_, fun a ha hia b hb hjb hne => ?_⟩, ?_,
      fun o ho hnot => ?_⟩
    · obtain ⟨place, -, o, ho, hnumber⟩ := mem_numbersAt.1 hn
      exact ⟨o, List.mem_of_getElem? ho, hnumber⟩
    · obtain ⟨i, hi⟩ := List.mem_iff_getElem?.1 ha
      obtain ⟨j, hj⟩ := List.mem_iff_getElem?.1 hb
      have hplace : i ≠ j := by
        rintro rfl
        exact hne (congrArg RuleOption.optionNumber (Option.some.inj (hi.symm.trans hj)))
      rw [← joined_ofOptions hi hj hplace]
      exact hclique.isClique.joined i ((hmem hi).1 hia) j ((hmem hj).1 hjb) hplace
    · intro hnil
      have hnone : ∀ i ∈ places, False := fun i hi => by
        have hat := List.getElem?_eq_getElem (hplaces i hi)
        exact List.not_mem_nil (hnil ▸ (hmem hat).2 hi)
      -- with no places at all, the first option could be added
      obtain ⟨j, hj, -⟩ := hlacks 0 (List.length_pos_iff.2 hnonempty) (hnone 0)
      exact hnone j hj
    · obtain ⟨i, hi⟩ := List.mem_iff_getElem?.1 ho
      have hfree : i ∉ places := fun hplace => hnot ((hmem hi).2 hplace)
      obtain ⟨j, hj, hjoined⟩ := hlacks i (List.getElem?_eq_some_iff.1 hi).1 hfree
      have hat := List.getElem?_eq_getElem (hplaces j hj)
      refine ⟨_, List.getElem_mem (hplaces j hj), (hmem hat).2 hj, ?_⟩
      rwa [← joined_ofOptions hi hat fun heq => hfree (heq ▸ hj)]
  · intro hset
    refine ⟨⟨hascending, fun i hi j hj hne => ?_⟩, nofun,
      fun i hi => .inr (List.mem_range.2 (hplaces i hi)), fun i hi hnot => ?_⟩
    · have hati := List.getElem?_eq_getElem (hplaces i hi)
      have hatj := List.getElem?_eq_getElem (hplaces j hj)
      rw [joined_ofOptions hati hatj hne]
      refine hset.confluent _ (List.getElem_mem _) ((hmem hati).2 hi) _ (List.getElem_mem _)
        ((hmem hatj).2 hj) fun hsame => ?_
      exact hne (place_eq_of_optionNumber_eq hnumbers hati hatj hsame)
    · have hlt : i < options.length := List.mem_range.1 (hi.resolve_right List.not_mem_nil)
      have hat := List.getElem?_eq_getElem hlt
      obtain ⟨other, hother, hnumber, hconflict⟩ :=
        hset.maximal _ (List.getElem_mem hlt) fun hmem' => hnot ((hmem hat).1 hmem')
      obtain ⟨j, hj⟩ := List.mem_iff_getElem?.1 hother
      have hplace : j ∈ places := (hmem hj).1 hnumber
      exact ⟨j, hplace, (joined_ofOptions hat hj fun heq => hnot (heq ▸ hplace)).trans hconflict⟩

end Numbered

/-- Every confluent set is the numbers of some places. -/
theorem IsConfluentSet.exists_places (h : IsConfluentSet options set) :
    ∃ places, places.Pairwise (· < ·) ∧ (∀ i ∈ places, i < options.length) ∧
      numbersAt options places = set := by
  refine ⟨(List.range options.length).filter fun i => options[i]?.any (·.optionNumber ∈ set),
    List.pairwise_lt_range.filter _, fun i hi => List.mem_range.1 (List.mem_filter.1 hi).1,
    (pairwise_ascending _).eq_of_mem_iff h.ascending fun n => ?_⟩
  show n ∈ numbersAt options _ ↔ n ∈ set
  rw [mem_numbersAt]
  constructor
  · rintro ⟨i, hi, o, ho, rfl⟩
    simpa [ho] using (List.mem_filter.1 hi).2
  · intro hn
    obtain ⟨o, ho, rfl⟩ := h.listed n hn
    obtain ⟨i, hi⟩ := List.mem_iff_getElem?.1 ho
    have hlt : i < options.length := (List.getElem?_eq_some_iff.1 hi).1
    exact ⟨i, List.mem_filter.2 ⟨List.mem_range.2 hlt, by simpa [hi] using hn⟩, o, hi, rfl⟩

/-! ## Sorting

The sets are sorted by an insertion sort. That the order is total and transitive is what makes
the list a sorted one, and that no set comes twice makes the order strict. -/

/-- Insertion puts a value where the library's does. -/
theorem insertBy_eq_orderedInsert {α : Type} (le : α → α → Bool) (a : α) :
    (values : List α) → insertBy le a values = values.orderedInsert (le · · = true) a
  | [] => rfl
  | b :: rest => by
    rw [insertBy, List.orderedInsert_cons, insertBy_eq_orderedInsert le a rest]

/-- The sorting of the project is the library's insertion sort, of which it is known that it
sorts. -/
theorem sortBy_eq_insertionSort {α : Type} (le : α → α → Bool) (values : List α) :
    sortBy le values = values.insertionSort (le · · = true) := by
  induction values with
  | nil => rfl
  | cons a rest ih =>
    rw [List.insertionSort_cons, ← ih, ← insertBy_eq_orderedInsert]
    rfl

/-- The order of sets is transitive. -/
theorem ComesBefore.trans {a b c : List Nat} (h : ComesBefore a b) (h' : ComesBefore b c) :
    ComesBefore a c := by
  rcases h with h | ⟨heq, h⟩
  · exact .inl (h'.elim (fun h' => h'.trans h) fun h' => h'.1 ▸ h)
  · rcases h' with h' | ⟨heq', h'⟩
    · exact .inl (heq ▸ h')
    · exact .inr ⟨heq.trans heq', List.lt_trans h h'⟩

/-- The order of the sets is the strict one or equality. -/
theorem setOrder_iff {a b : List Nat} : setOrder a b = true ↔ ComesBefore a b ∨ a = b := by
  unfold setOrder ComesBefore
  rw [Bool.or_eq_true, decide_eq_true_iff, Bool.and_eq_true, beq_iff_eq, Bool.not_eq_true',
    ← Bool.not_eq_true, List.lex_eq_true_iff_lt, List.not_lt, List.le_iff_lt_or_eq, and_or_left,
    or_assoc]
  exact or_congr_right (or_congr_right (and_iff_right_of_imp (congrArg List.length)))

instance : Std.Total (setOrder · · = true) where
  total a b := by
    rw [setOrder_iff, setOrder_iff]
    unfold ComesBefore
    rcases Nat.lt_trichotomy a.length b.length with h | h | h
    · exact .inr (.inl (.inl h))
    · rcases Std.lt_trichotomy a b with h' | h' | h'
      · exact .inl (.inl (.inr ⟨h, h'⟩))
      · exact .inl (.inr h')
      · exact .inr (.inl (.inr ⟨h.symm, h'⟩))
    · exact .inl (.inl (.inl h))

instance : IsTrans (List Nat) (setOrder · · = true) where
  trans a b c h h' := by
    rw [setOrder_iff] at h h' ⊢
    rcases h with h | rfl
    · exact .inl (h'.elim h.trans fun h' => h' ▸ h)
    · exact h'

/-! ## The theorem

What is listed, that it is listed once, and in which order: each has its own lemma, and the field
in which an option tells its confluent ones is the last part. -/

/-- An option that got its confluent ones has the numbers of all of them. -/
theorem exists_of_mem_assignConfluence (ho : o ∈ assignConfluence options) :
    ∃ found ∈ options, found.optionNumber = o.optionNumber ∧
      ∀ other ∈ options, other.optionNumber ≠ o.optionNumber → areConfluent found other = true →
        other.optionNumber ∈ o.confluence := by
  obtain ⟨i, hi⟩ := List.mem_iff_getElem?.1 ho
  obtain ⟨found, confluence, hfound, rfl, hnumbers⟩ := getElem?_assignConfluence hi
  refine ⟨found, List.mem_of_getElem? hfound, rfl, fun other hother hne hconfluent => ?_⟩
  obtain ⟨j, hj⟩ := List.mem_iff_getElem?.1 hother
  have hplace : j ≠ i := by
    rintro rfl
    have hsame : other = found := Option.some.inj (hj.symm.trans hfound)
    exact hne (hsame ▸ rfl)
  exact (hnumbers other.optionNumber).2 ⟨j, other, hj, hplace, hconfluent, rfl⟩

section Numbered

variable (hnumbers : (options.map (·.optionNumber)).Nodup)

include hnumbers

open ConfluenceGraph

/-- **The list has the maximal confluent sets and nothing else.** -/
theorem mem_maximalConfluentSets :
    set ∈ maximalConfluentSets options ↔ IsMaximalConfluentSet options set := by
  unfold maximalConfluentSets
  split
  · rename_i hempty
    refine iff_of_false List.not_mem_nil fun hset => ?_
    obtain ⟨n, hn⟩ := List.exists_mem_of_ne_nil set hset.nonempty
    obtain ⟨o, ho, -⟩ := hset.listed n hn
    exact List.not_mem_nil (List.isEmpty_iff.1 hempty ▸ ho)
  · rename_i hempty
    have hnonempty : options ≠ [] := fun hnil => hempty (List.isEmpty_iff.2 hnil)
    dsimp only
    rw [(perm_sortBy _ _).mem_iff, List.mem_map]
    constructor
    · rintro ⟨clique, hclique, rfl⟩
      have hcompletes := (mem_cliquesFrom_iff (.start _ _)).1 hclique
      refine (completes_iff_isMaximal hnumbers hnonempty hcompletes.isClique.ascending
        fun i hi => ?_).1 hcompletes
      exact List.mem_range.1 ((hcompletes.made_of i hi).resolve_left List.not_mem_nil)
    · intro hset
      obtain ⟨places, hascending, hplaces, rfl⟩ := hset.toIsConfluentSet.exists_places
      exact ⟨places, (mem_cliquesFrom_iff (.start _ _)).2
        ((completes_iff_isMaximal hnumbers hnonempty hascending hplaces).2 hset), rfl⟩

/-- Cliques with the same numbers are the same. So a set is listed twice only if a clique is. -/
theorem numbersAt_injective {places' : List Nat} (hascending : places.Pairwise (· < ·))
    (hascending' : places'.Pairwise (· < ·)) (hplaces : ∀ i ∈ places ++ places', i < options.length)
    (h : numbersAt options places = numbersAt options places') : places = places' := by
  refine hascending.eq_of_mem_iff hascending' fun i => ?_
  by_cases hi : i < options.length
  · have hat := List.getElem?_eq_getElem hi
    rw [← optionNumber_mem_numbersAt hnumbers hat, h, optionNumber_mem_numbersAt hnumbers hat]
  · exact iff_of_false (fun hmem => hi (hplaces i (List.mem_append_left _ hmem)))
      fun hmem => hi (hplaces i (List.mem_append_right _ hmem))

/-- **Each set comes before the ones that follow it**, so none is listed twice. -/
theorem pairwise_maximalConfluentSets :
    (maximalConfluentSets options).Pairwise ComesBefore := by
  unfold maximalConfluentSets
  split
  · exact .nil
  · have hnodup : ((cliquesFrom (.ofOptions options) [] (List.range options.length) []).map
        (numbersAt options)).Nodup := by
      refine (nodup_cliquesFrom (.start _ _)).map_on fun clique hclique clique' hclique' h => ?_
      have hfound := (mem_cliquesFrom_iff (.start _ _)).1 hclique
      have hfound' := (mem_cliquesFrom_iff (.start _ _)).1 hclique'
      refine numbersAt_injective hnumbers hfound.isClique.ascending hfound'.isClique.ascending
        (fun i hi => List.mem_range.1 ?_) h
      exact (List.mem_append.1 hi).elim
        (fun hi => (hfound.made_of i hi).resolve_left List.not_mem_nil)
        fun hi => (hfound'.made_of i hi).resolve_left List.not_mem_nil
    dsimp only
    have hsorted := List.pairwise_insertionSort (setOrder · · = true)
      ((cliquesFrom (.ofOptions options) [] (List.range options.length) []).map
        (numbersAt options))
    rw [← sortBy_eq_insertionSort] at hsorted
    refine hsorted.imp₂ (fun a b hle hne => ?_) ((perm_sortBy _ _).nodup_iff.2 hnodup)
    exact (setOrder_iff.1 hle).resolve_right hne

/-- **Every option is in a maximal confluent set.** -/
theorem exists_maximalConfluentSet (ho : o ∈ options) :
    ∃ set ∈ maximalConfluentSets options, o.optionNumber ∈ set := by
  obtain ⟨i, hi⟩ := List.mem_iff_getElem?.1 ho
  have hlt : i < options.length := (List.getElem?_eq_some_iff.1 hi).1
  have hsingle : (ofOptions options).IsClique [i] := by
    refine ⟨List.pairwise_singleton _ _, fun v hv w hw hne => absurd ?_ hne⟩
    rw [List.mem_singleton.1 hv, List.mem_singleton.1 hw]
  obtain ⟨clique, hclique, hmem⟩ := hsingle.exists_completes fun v hv =>
    List.mem_range.2 (List.mem_singleton.1 hv ▸ hlt)
  refine ⟨numbersAt options clique, (mem_maximalConfluentSets hnumbers).2 ?_,
    (optionNumber_mem_numbersAt hnumbers hi).2 (hmem i List.mem_cons_self)⟩
  exact (completes_iff_isMaximal hnumbers (List.ne_nil_of_mem ho) hclique.isClique.ascending
    fun v hv => List.mem_range.1 ((hclique.made_of v hv).resolve_left List.not_mem_nil)).1 hclique

end Numbered

/-- **The maximal confluent sets are listed, each of them once.** If the numbers
of the options are distinct, the list has exactly the maximal confluent sets,
larger ones first and those of one size in lexicographic order. There is none
only where there is no option; every option is in one of them; and a set with
an option has only that option and those it was found confluent with. -/
theorem maximalConfluentSets_exact (hnumbers : (options.map (·.optionNumber)).Nodup) :
    (∀ set, set ∈ maximalConfluentSets options ↔ IsMaximalConfluentSet options set) ∧
      (maximalConfluentSets options).Nodup ∧
      (maximalConfluentSets options).Pairwise ComesBefore ∧
      (maximalConfluentSets options = [] ↔ options = []) ∧
      (∀ o ∈ options, ∃ set ∈ maximalConfluentSets options, o.optionNumber ∈ set) ∧
      ∀ o ∈ assignConfluence options, ∀ set ∈ maximalConfluentSets options,
        o.optionNumber ∈ set → ∀ n ∈ set, n = o.optionNumber ∨ n ∈ o.confluence := by
  have hsorted := pairwise_maximalConfluentSets hnumbers
  refine ⟨fun set => mem_maximalConfluentSets hnumbers, hsorted.imp fun h heq => ?_, hsorted,
    ⟨fun hnil => ?_, fun hnil => hnil ▸ rfl⟩, fun o ho => exists_maximalConfluentSet hnumbers ho,
    fun o ho set hset hmem n hn => ?_⟩
  · subst heq
    exact h.elim (Nat.lt_irrefl _) fun h => List.lt_irrefl _ h.2
  · refine List.eq_nil_iff_forall_not_mem.2 fun o ho => ?_
    obtain ⟨set, hset, -⟩ := exists_maximalConfluentSet hnumbers ho
    exact List.not_mem_nil (hnil ▸ hset)
  · have hconfluent := ((mem_maximalConfluentSets hnumbers).1 hset).toIsConfluentSet
    obtain ⟨found, hfound, hnumber, hall⟩ := exists_of_mem_assignConfluence ho
    obtain ⟨other, hother, rfl⟩ := hconfluent.listed n hn
    refine or_iff_not_imp_left.2 fun hne => hall other hother hne ?_
    exact hconfluent.confluent found hfound (hnumber ▸ hmem) other hother hn
      fun heq => hne (heq.symm.trans hnumber)

/-- Three options of which the first and the last take the same node. -/
def RuleOption.threeInTurn : List RuleOption :=
  [{ nodes := [some ⟨0⟩], optionNumber := 0 }, { nodes := [some ⟨1⟩], optionNumber := 1 },
    { nodes := [some ⟨0⟩], optionNumber := 2 }]

example : maximalConfluentSets RuleOption.threeInTurn = [[0, 1], [1, 2]] := by cbv

/-- Options that take different nodes are listed together, and not alone. -/
theorem maximalConfluentSets_exact_threeInTurn :
    (RuleOption.threeInTurn.map (·.optionNumber)).Nodup ∧
      [1, 2] ∈ maximalConfluentSets RuleOption.threeInTurn ∧
      [1] ∉ maximalConfluentSets RuleOption.threeInTurn := by
  have hnumbers : (RuleOption.threeInTurn.map (·.optionNumber)).Nodup := by decide
  obtain ⟨hmem, -⟩ := maximalConfluentSets_exact hnumbers
  refine ⟨hnumbers, (hmem [1, 2]).2 ⟨⟨by decide, by decide, by decide⟩, by decide, by decide⟩,
    fun h => ?_⟩
  exact absurd ((hmem [1]).1 h).maximal (by decide)

end GraphGrammar
