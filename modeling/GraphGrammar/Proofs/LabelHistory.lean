import GraphGrammar.Proofs.Connecting
import GraphGrammar.Serial.Rule

/-!
# Histories of label sets

No operation on label sets lists a label twice that was not, and yet a label set may have
repeats: one that is read has those of the list it is read from. Putting labels in leaves the
repeats as they are and taking one out removes one of them, so what is repeated in the end was
repeated in the list that was read last (`repeated_iff_read`).

Sets are compared by their sizes. That is right as long as neither set has repeats, or one as
many as the other. Otherwise sets that differ may be taken for the same, in one order and not in
the other (`repeated_label_read`). The labels of a graph are out of danger. They are read as part
of a description, and what is described has no repeats (`Graph.labelsDistinct_of_read`).

A history is a list of steps, and the set is what they come to from an empty one. All of this is
about the list of labels and holds for labels of any kind.
-/

namespace GraphGrammar

/-- Texts are read from a list of texts and from nothing else. -/
theorem Document.read?_texts_iff {stored : Document} {texts : List String} :
    Stored.read? stored = some texts ↔ stored = .list (texts.map .text) := by
  have htext : ∀ {d : Document} {s : String}, Stored.read? d = some s ↔ d = .text s := by
    intro d s
    cases d <;> simp [Stored.read?]
  cases stored with
  | list items =>
    show items.mapM Stored.read? = some texts ↔ _
    rw [Document.list.injEq]
    induction items generalizing texts with
    | nil => cases texts <;> simp
    | cons d rest ih =>
      cases texts <;> simp [List.mapM_cons, Option.bind_eq_some_iff, htext, ih]
  | _ => simp [Stored.read?, items?]

/-! ## Steps

Of the steps some make a set and the others change the one at hand. Reading is the only one that
can bring repeats in: it takes the list as it stands. -/

/-- What a label set is made by or changed by. The steps are the operations that a caller has:
those that begin a set anew, and those that put labels in or take them out. -/
inductive LabelStep where
  /-- The set without labels is taken. -/
  | empty
  | insert (label : Label)
  | erase (label : Label)
  /-- The set of the labels of a list is taken. -/
  | ofList (labels : List Label)
  /-- The labels of a list are put in one after the other, as an element is given labels. -/
  | insertAll (labels : List Label)
  /-- A stored set is read. If it is refused, the set stays as it is. -/
  | read (stored : Document)

namespace LabelStep

/-- The step makes a set, whatever was there before. -/
def startsAnew : LabelStep → Bool
  | empty | ofList _ => true
  | insert _ | erase _ | insertAll _ => false
  | read stored => (Stored.read? stored : Option LabelSet).isSome

/-- The step takes out a label, once. -/
def erases (label : Label) : LabelStep → Bool
  | erase other => other == label
  | _ => false

end LabelStep

namespace LabelSet

/-- Takes one more step. -/
def step (s : LabelSet) : LabelStep → LabelSet
  | .empty => .empty
  | .insert label => s.insert label
  | .erase label => s.erase label
  | .ofList labels => .ofList labels
  | .insertAll labels => labels.foldl insert s
  | .read stored => (Stored.read? stored).getD s

/-- The label set that comes of some steps. -/
def ofSteps (steps : List LabelStep) : LabelSet := steps.foldl step .empty

/-- How often a label is listed beyond the first time. It is a natural number, and taking a label
out lowers it by one if it can. -/
def surplus (s : LabelSet) (label : Label) : Nat := s.toList.count label - 1

/-- How many places of the list there are beyond the first places of its labels. -/
def repeats (s : LabelSet) : Nat := s.size - s.toList.eraseDups.length

/-- The last of the steps that make a set reads one, from the labels listed, and the others come
since. -/
structure LastRead (steps : List LabelStep) (listed : List Label) (since : List LabelStep) :
    Prop where
  split : ∃ before, steps = before ++ .read (.list (listed.map .text)) :: since
  changes : ∀ step ∈ since, step.startsAnew = false

variable {s other : LabelSet} {label : Label}

/-- A label set is read from a list of texts and from nothing else, and it is that list. -/
theorem read?_eq_some_iff {stored : Document} :
    Stored.read? stored = some s ↔ stored = .list (s.toList.map .text) := by
  have hread : (Stored.read? stored : Option LabelSet)
      = (Stored.read? stored : Option (List Label)).map mk := rfl
  have hset : ∀ labels, mk labels = s ↔ labels = s.toList := fun labels =>
    ⟨congrArg toList, congrArg mk⟩
  rw [hread, Option.map_eq_some_iff, ← Document.read?_texts_iff]
  simp only [hset, exists_eq_right]

/-! ## What a step does to repeats

For one label the repeats are a number, `LabelSet.surplus`, and each step either leaves it alone
or takes one off. A set without repeats is one in which all these numbers are zero. -/

/-- A set lists no label twice if none is listed beyond its first time. -/
theorem distinct_iff_surplus : s.Distinct ↔ ∀ label, s.surplus label = 0 := by
  rw [Distinct, List.nodup_iff_count_le_one]
  exact forall_congr' fun _ => Nat.sub_eq_zero_iff_le.symm

/-- A label is put in only if it is not there, so putting in makes no repeats. -/
theorem surplus_insert (s : LabelSet) (new label : Label) :
    (s.insert new).surplus label = s.surplus label := by
  unfold insert
  split
  · rfl
  · rename_i hnew
    have habsent : s.toList.count new = 0 :=
      List.count_eq_zero.2 fun hmem => hnew (contains_iff_mem.2 hmem)
    unfold surplus
    rw [List.count_append, List.count_singleton]
    split
    · rename_i heq
      rw [← beq_iff_eq.1 heq, habsent]
    · rfl

/-- Nor does putting in many. -/
theorem surplus_foldl_insert (labels : List Label) (s : LabelSet) (label : Label) :
    (labels.foldl insert s).surplus label = s.surplus label := by
  induction labels generalizing s with
  | nil => rfl
  | cons new rest ih => rw [List.foldl_cons, ih, surplus_insert]

/-- Taking a label out takes out one place of it. If it stood there more than once there is one
repeat less. -/
theorem surplus_erase (s : LabelSet) (old label : Label) :
    (s.erase old).surplus label = s.surplus label - if old == label then 1 else 0 := by
  unfold surplus erase
  rw [List.count_erase, Nat.sub_right_comm]

/-- **A step that only changes a set leaves its repeats as they are**, but for the one that it
takes out. -/
theorem surplus_step {step : LabelStep} (h : step.startsAnew = false) :
    (s.step step).surplus label = s.surplus label - if step.erases label then 1 else 0 := by
  cases step with
  | empty => exact nomatch h
  | ofList labels => exact nomatch h
  | insert new => exact surplus_insert s new label
  | insertAll labels => exact surplus_foldl_insert labels s label
  | erase old => exact surplus_erase s old label
  | read stored =>
    have hrefused : (Stored.read? stored : Option LabelSet) = none :=
      Option.isNone_iff_eq_none.1 (Option.isSome_eq_false_iff.1 h)
    show ((Stored.read? stored).getD s).surplus label = s.surplus label
    rw [hrefused, Option.getD_none]

/-- A step that makes a set reads a list of labels, or the set has no repeats. -/
theorem step_of_startsAnew {step : LabelStep} (h : step.startsAnew = true) :
    (∃ listed : List Label, step = .read (.list (listed.map .text))) ∨
      (s.step step).Distinct := by
  cases step with
  | empty => exact .inr List.nodup_nil
  | ofList labels => exact .inr (distinct_ofList labels)
  | read stored =>
    obtain ⟨t, ht⟩ := Option.isSome_iff_exists.1 h
    exact .inl ⟨t.toList, congrArg LabelStep.read (read?_eq_some_iff.1 ht)⟩
  | _ => exact nomatch h

/-- A list of texts is read as it stands. -/
theorem step_read (s : LabelSet) (listed : List Label) :
    s.step (.read (.list (listed.map .text))) = ⟨listed⟩ := by
  have hread : Stored.read? (.list (listed.map .text)) = some (mk listed) := read?_eq_some_iff.2 rfl
  show (Stored.read? _).getD s = _
  rw [hread, Option.getD_some]

/-! ## What many steps do

By induction on the steps since the last reading, what is left of the repeats is a difference of
two counts. -/

variable {steps since : List LabelStep} {listed : List Label}

/-- Steps that only change a set take off as many repeats of a label as they take out the label,
as far as there are any. -/
theorem surplus_foldl_step (h : ∀ step ∈ steps, step.startsAnew = false) :
    (steps.foldl step s).surplus label = s.surplus label - steps.countP (·.erases label) := by
  induction steps generalizing s with
  | nil => rfl
  | cons first rest ih =>
    obtain ⟨hfirst, hrest⟩ := List.forall_mem_cons.1 h
    rw [List.foldl_cons, ih hrest, surplus_step hfirst, List.countP_cons, Nat.sub_sub, Nat.add_comm]

/-- **What is left of the repeats that were read.** -/
theorem LastRead.surplus_ofSteps (h : LastRead steps listed since) (label : Label) :
    (ofSteps steps).surplus label
      = listed.count label - 1 - since.countP (·.erases label) := by
  obtain ⟨before, rfl⟩ := h.split
  rw [ofSteps, List.foldl_append, List.foldl_cons, step_read, surplus_foldl_step h.changes]
  rfl

/-- Whatever the steps are, the set was read last or has no repeats. -/
theorem lastRead_or_distinct (steps : List LabelStep) :
    (∃ listed since, LastRead steps listed since) ∨ (ofSteps steps).Distinct := by
  induction steps using List.reverseRecOn with
  | nil => exact .inr List.nodup_nil
  | append_singleton steps last ih =>
    have hlast : ofSteps (steps ++ [last]) = (ofSteps steps).step last := by
      rw [ofSteps, List.foldl_append, List.foldl_cons, List.foldl_nil, ofSteps]
    rw [hlast]
    cases hanew : last.startsAnew with
    | true =>
      refine (step_of_startsAnew hanew).imp_left ?_
      rintro ⟨listed, rfl⟩
      exact ⟨listed, [], ⟨steps, rfl⟩, nofun⟩
    | false =>
      refine ih.imp ?_ fun hdistinct => ?_
      · rintro ⟨listed, since, ⟨before, rfl⟩, hchanges⟩
        refine ⟨listed, since ++ [last], ⟨before, List.append_assoc ..⟩, ?_⟩
        exact List.forall_mem_append.2 ⟨hchanges, List.forall_mem_singleton.2 hanew⟩
      · refine distinct_iff_surplus.2 fun label => ?_
        rw [surplus_step hanew, distinct_iff_surplus.1 hdistinct label, Nat.zero_sub]

/-- **A label is repeated just if it was read so**, and taken out less often since than it was
repeated. -/
theorem one_lt_count_ofSteps_iff :
    1 < (ofSteps steps).toList.count label ↔
      ∃ listed since, LastRead steps listed since ∧
        since.countP (·.erases label) + 1 < listed.count label := by
  constructor
  · intro hcount
    rcases lastRead_or_distinct steps with ⟨listed, since, hread⟩ | hdistinct
    · refine ⟨listed, since, hread, ?_⟩
      have hsurplus := hread.surplus_ofSteps label
      unfold surplus at hsurplus
      omega
    · exact absurd hcount (Nat.not_lt.2 (List.nodup_iff_count_le_one.1 hdistinct label))
  · rintro ⟨listed, since, hread, hcount⟩
    have hsurplus := hread.surplus_ofSteps label
    unfold surplus at hsurplus
    omega

/-! ## Comparison by size

The comparison counts labels and then looks for those of one set in the other. The count is over
places of the list, so repeats go into it. -/

/-- Without its repeats a set is a part of what it was. -/
theorem subperm_ofList (s : LabelSet) : (ofList s.toList).toList.Subperm s.toList :=
  (distinct_ofList s.toList).subperm fun _ hmem => mem_ofList.1 hmem

/-- The size is that of the set without repeats and the number of repeats. -/
theorem size_ofList_add_repeats (s : LabelSet) : (ofList s.toList).size + s.repeats = s.size := by
  rw [repeats, ← toList_ofList]
  exact Nat.add_sub_cancel' s.subperm_ofList.length_le

/-- A set has no repeats if it lists no label twice. -/
theorem repeats_eq_zero_iff : s.repeats = 0 ↔ s.Distinct := by
  have hsum := s.size_ofList_add_repeats
  constructor
  · intro h
    have hsize : s.size ≤ (ofList s.toList).size := by omega
    exact (s.subperm_ofList.perm_of_length_le hsize).nodup_iff.1 (distinct_ofList s.toList)
  · intro h
    rw [ofList_eq_self h] at hsum
    exact Nat.add_eq_left.1 hsum

/-- Sets that have the same labels have them equally often, repeats apart. -/
theorem sameLabels_ofList_iff :
    (ofList s.toList).sameLabels (ofList other.toList) = true ↔
      ∀ label, label ∈ s.toList ↔ label ∈ other.toList := by
  rw [sameLabels_iff_of_distinct (distinct_ofList _) (distinct_ofList _)]
  simp only [mem_ofList]
  exact forall_congr' fun _ => Iff.comm

/-- **Sets with as many repeats are compared rightly.** -/
theorem sameLabels_iff_of_repeats_eq (h : s.repeats = other.repeats) :
    s.sameLabels other = true ↔ ∀ label, label ∈ s.toList ↔ label ∈ other.toList := by
  have hs := s.size_ofList_add_repeats
  have hother := other.size_ofList_add_repeats
  have hsize : s.size = other.size ↔ (ofList s.toList).size = (ofList other.toList).size := by
    omega
  rw [← sameLabels_ofList_iff, sameLabels_iff, sameLabels_iff, hsize]
  simp only [mem_ofList]

/-- **A set is never taken for one with fewer repeats**, and if it is taken for one with more
it has a label that the other lacks. -/
theorem repeats_of_sameLabels (h : s.sameLabels other = true) :
    s.repeats ≤ other.repeats ∧
      (s.repeats < other.repeats → ∃ label ∈ s.toList, label ∉ other.toList) := by
  obtain ⟨hsize, hmem⟩ := sameLabels_iff.1 h
  have hs := s.size_ofList_add_repeats
  have hother := other.size_ofList_add_repeats
  constructor
  · have hsub : (ofList other.toList).toList ⊆ (ofList s.toList).toList := fun label hlabel =>
      mem_ofList.2 (hmem label (mem_ofList.1 hlabel))
    have hle : (ofList other.toList).size ≤ (ofList s.toList).size :=
      ((distinct_ofList other.toList).subperm hsub).length_le
    omega
  · intro hlt
    by_contra hnone
    have hsame : ∀ label, label ∈ s.toList ↔ label ∈ other.toList := fun label =>
      ⟨fun hlabel => by_contra fun hout => hnone ⟨label, hlabel, hout⟩, hmem label⟩
    have hdistinct := (sameLabels_iff.1 (sameLabels_ofList_iff.2 hsame)).1
    omega

/-- **Repeats are read, and where they are as many the comparison is right.** For any steps,

* the set that comes of them lists a label twice just if the list read last has the label more
  often than it was taken out since, by two at least; so there are no repeats if nothing was read,
  or no list with repeats;
* it is compared rightly, and in either order alike, with a set that has as many repeats, as
  sets without repeats have;
* and if it is taken for a set with another number of repeats, then for one with more, and
  wrongly. -/
theorem repeated_iff_read (steps others : List LabelStep) :
    let s := ofSteps steps
    let other := ofSteps others
    (∀ label, 1 < s.toList.count label ↔
      ∃ listed since, LastRead steps listed since ∧
        since.countP (·.erases label) + 1 < listed.count label) ∧
      (s.repeats = 0 ↔ s.Distinct) ∧
      (s.repeats = other.repeats → s.sameLabels other = other.sameLabels s ∧
        (s.sameLabels other = true ↔ ∀ label, label ∈ s.toList ↔ label ∈ other.toList)) ∧
      (s.sameLabels other = true → s.repeats ≤ other.repeats ∧
        (s.repeats < other.repeats → ∃ label ∈ s.toList, label ∉ other.toList)) := by
  intro s other
  refine ⟨fun label => one_lt_count_ofSteps_iff, repeats_eq_zero_iff, fun hrepeats => ?_,
    repeats_of_sameLabels⟩
  have hsame := sameLabels_iff_of_repeats_eq hrepeats
  have hback := sameLabels_iff_of_repeats_eq hrepeats.symm
  refine ⟨?_, hsame⟩
  rw [Bool.eq_iff_iff, hsame, hback]
  exact forall_congr' fun _ => Iff.comm

/-- One of three is taken out and two are left. Another set repeats another label, and the two
are rightly taken for the same. -/
theorem repeated_iff_read_thrice :
    let steps := [.read (.list (["a", "b", "a", "a"].map .text)), .insert "b", .erase "a"]
    let others := [.ofList ["c", "c"], .read (.list (["b", "a", "b"].map .text))]
    1 < (ofSteps steps).toList.count "a" ∧
      (ofSteps steps).sameLabels (ofSteps others) = true ∧
      (ofSteps others).sameLabels (ofSteps steps) = true := by
  intro steps others
  obtain ⟨hcount, -, hcompared, -⟩ := repeated_iff_read steps others
  have hsteps : (ofSteps steps).toList = ["b", "a", "a"] := by decide +kernel
  have hothers : (ofSteps others).toList = ["b", "a", "b"] := by decide +kernel
  obtain ⟨hsymm, hsame⟩ := hcompared (by decide +kernel)
  have hright : (ofSteps steps).sameLabels (ofSteps others) = true := by
    refine hsame.2 fun label => ?_
    rw [hsteps, hothers]
    grind
  refine ⟨(hcount "a").2 ⟨_, _, ⟨⟨[], rfl⟩, ?_⟩, by decide +kernel⟩, hright, hsymm ▸ hright⟩
  decide +kernel

/-- **What is read may list a label twice, and then sets that differ are taken for the same**,
in one order and not in the other. Conditions are read like this. -/
theorem repeated_label_read :
    let read := ofSteps [.read (.list [.text "a", .text "a"])]
    let built := ofSteps [.insert "a", .insert "b"]
    read.toList = ["a", "a"] ∧ built.toList = ["a", "b"] ∧
      built.sameLabels read = true ∧ read.sameLabels built = false ∧
      (Stored.read? (.record [("negate_labels", .list [.text "a", .text "a"])])).map
        (fun condition : NodeCondition => condition.negateLabels.toList) = some ["a", "a"] := by
  decide +kernel

end LabelSet

/-! ## The labels of graphs

The labels of a graph are not read by this way: descriptions put their labels in one by one. So a
graph that is read keeps to the invariant. -/

/-- **A graph that is read lists no label twice**, neither for an element nor for itself. -/
theorem Graph.labelsDistinct_of_read {stored : Document} {g : Graph}
    (h : Stored.read? stored = some g) : g.LabelsDistinct := by
  obtain ⟨description, -, hconnect⟩ := Option.bind_eq_some_iff.1 h
  obtain ⟨⟨hnodup, hreferences⟩, rfl⟩ :=
    GraphDescription.connect_eq_ok_iff.1 (eq_ok_of_toOption hconnect)
  have hdescribed := GraphDescription.describes_connected hnodup hreferences
  exact (Graph.tidied_eq_self_iff.1 hdescribed.tidied_eq_self).1

end GraphGrammar
