/-!
# Label sets

Labels are short strings attached to elements and to whole graphs. A
`LabelSet` lists its labels in the order in which they were put in, and
inserting never lists one twice. A stored label set is read as it stands,
repeats included, so the absence of repeats is a property of the sets that
`insert` builds and not of the type; the size comparison in `sameLabels` is
meant for those.

Whatever takes a label set for a set has `LabelSet.Distinct` for its condition, and
`distinct_ofList` to discharge it with wherever a set was built and not read. The operations that
put labels in keep it, those that take labels out cannot break it, and `replaceRun` builds its
result anew.
-/

namespace GraphGrammar

/-- A string tag. -/
abbrev Label : Type := String

/-- Labels in order of insertion. -/
structure LabelSet where
  toList : List Label := []
deriving DecidableEq, Repr, Inhabited

namespace LabelSet

/-- The set without labels. -/
def empty : LabelSet := ⟨[]⟩

/-- **No label is listed twice.** Sets that `insert` builds are like this (`distinct_ofList`);
one that is read is what was stored. Whatever depends on a set being a set has this for its
condition. -/
def Distinct (s : LabelSet) : Prop := s.toList.Nodup

instance (s : LabelSet) : Decidable s.Distinct := inferInstanceAs (Decidable s.toList.Nodup)

/-- The number of labels. -/
def size (s : LabelSet) : Nat := s.toList.length

/-- Whether there are no labels. -/
def isEmpty (s : LabelSet) : Bool := s.toList.isEmpty

/-- Whether a label is present. -/
def contains (s : LabelSet) (label : Label) : Bool := s.toList.contains label

/-- Adds a label at the end unless it is present. -/
def insert (s : LabelSet) (label : Label) : LabelSet :=
  if s.contains label then s else ⟨s.toList ++ [label]⟩

/-- Removes the first occurrence of a label. -/
def erase (s : LabelSet) (label : Label) : LabelSet := ⟨s.toList.erase label⟩

/-- The labels of a list, each at its first place. -/
def ofList (labels : List Label) : LabelSet := labels.foldl insert empty

/-- Every label of `other` is present. -/
def containsAll (s other : LabelSet) : Bool := other.toList.all s.contains

/-- Some label of `other` is present. -/
def containsAny (s other : LabelSet) : Bool := other.toList.any s.contains

/-- The same labels in whatever order, for sets without repeats. -/
def sameLabels (s other : LabelSet) : Bool := s.size == other.size && s.containsAll other

/-- The labels of the set that are also labels of `other`, in the set's
order. -/
def inter (s other : LabelSet) : LabelSet := ofList (s.toList.filter other.contains)

/-- Moves a set along the difference of two others: takes out what only
`before` has, then puts in what only `after` has. Labels that neither
mentions stay. -/
def moveAlong (s before after : LabelSet) : LabelSet :=
  (after.toList.filter (!before.contains ·)).foldl insert
    ((before.toList.filter (!after.contains ·)).foldl erase s)

/-- Replaces the run of labels that starts at `start` and is as long as
`before` by the labels of `after`. A start beyond the labels replaces
nothing: the labels of `after` go where the run would end, which is counted
in 64-bit words. -/
def replaceRun (s before after : LabelSet) (start : Nat) : LabelSet :=
  if start ≤ s.size then
    ofList (s.toList.take start ++ after.toList ++ s.toList.drop (start + before.size))
  else
    let cut := (start + before.size) % UInt64.size
    ofList (s.toList.take cut ++ after.toList ++ s.toList.drop cut)

/-! ## Membership after an operation

Of the rules only the ordered ones see the order of a set. All others ask for membership, so every
operation is told by the members it leaves. -/

/-- The question that is asked of a set, and the membership that is reasoned about. -/
theorem contains_iff_mem {s : LabelSet} {label : Label} :
    s.contains label = true ↔ label ∈ s.toList := by
  simp [contains]

/-- Inserting what is there changes no membership, and so there is no case distinction here. -/
theorem mem_insert {s : LabelSet} {label other : Label} :
    other ∈ (s.insert label).toList ↔ other ∈ s.toList ∨ other = label := by
  unfold insert
  split
  · rename_i h
    exact ⟨.inl, fun h' => h'.elim id fun heq => heq ▸ contains_iff_mem.1 h⟩
  · simp

/-- Inserting is the only way in which a label gets in, and it looks first. -/
theorem distinct_insert {s : LabelSet} (h : s.Distinct) (label : Label) :
    (s.insert label).Distinct := by
  unfold insert
  split
  · exact h
  · rename_i hnew
    show (s.toList ++ [label]).Nodup
    rw [List.nodup_append]
    refine ⟨h, by simp, fun a ha b hb heq => ?_⟩
    rw [List.mem_singleton.1 hb] at heq
    exact hnew (contains_iff_mem.2 (heq ▸ ha))

/-- Any number of insertions keeps a set without repeats so. -/
theorem distinct_foldl_insert {labels : List Label} :
    {s : LabelSet} → s.Distinct → (labels.foldl insert s).Distinct := by
  induction labels with
  | nil => exact fun h => h
  | cons label rest ih => exact fun h => ih (distinct_insert h label)

/-- Any number of insertions adds their labels and takes none away. -/
theorem mem_foldl_insert {labels : List Label} {label : Label} {s : LabelSet} :
    label ∈ (labels.foldl insert s).toList ↔ label ∈ s.toList ∨ label ∈ labels := by
  induction labels generalizing s with
  | nil => simp
  | cons first rest ih =>
    rw [List.foldl_cons, ih, mem_insert, List.mem_cons, or_assoc]

/-- A list of labels and the set made of it have the same members. -/
theorem mem_ofList {labels : List Label} {label : Label} :
    label ∈ (ofList labels).toList ↔ label ∈ labels := by
  simp [ofList, mem_foldl_insert, empty]

/-- **A set that is built has no repeats**, whatever it is built from. -/
theorem distinct_ofList (labels : List Label) : (ofList labels).Distinct :=
  distinct_foldl_insert List.nodup_nil

end LabelSet

end GraphGrammar
