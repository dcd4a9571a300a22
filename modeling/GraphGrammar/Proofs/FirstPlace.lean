import GraphGrammar.Graph.Element

/-!
# Everything at its first place

Labels and members are put into a list one after the other, each unless it is there already.
What comes of it is the list of all of them with every repeat dropped (`foldl_putIn`), which
is nothing new if there are no repeats. Sets of labels (`LabelSet.ofList`) and lists of
members (`distinctMembers`) are made in this way.

The fold with a test for membership is how the labels and members come to be; the list with
repeats dropped is how one reasons about them. Both are the same list, in the same order, and
most of what is needed about the second is in the library already.
-/

namespace GraphGrammar

section

variable {α β : Type} [BEq α] [LawfulBEq α] [BEq β] [LawfulBEq β]

/-- To put in what is not there yet, one item after the other, is to put in every item at its
first place. -/
theorem foldl_putIn : ∀ items seen : List α,
    items.foldl (fun seen item => if seen.contains item then seen else seen ++ [item]) seen
      = seen ++ (items.filter (!seen.contains ·)).eraseDups
  | [], seen => by simp
  | item :: rest, seen => by
    rw [List.foldl_cons, foldl_putIn rest]
    by_cases hseen : seen.contains item = true
    · rw [if_pos hseen, List.filter_cons_of_neg (by rw [hseen]; decide)]
    · have hfilter : rest.filter (!(seen ++ [item]).contains ·)
          = (rest.filter (!seen.contains ·)).filter (!· == item) := by
        rw [List.filter_filter]
        refine List.filter_congr fun other _ => ?_
        rw [List.contains_append, Bool.not_or, Bool.and_comm]
        simp
      rw [if_neg hseen, List.filter_cons_of_pos (by simpa using hseen), List.eraseDups_cons,
        hfilter,
        List.append_assoc, List.singleton_append]

/-- The case that is met: the list one starts with is empty. -/
theorem foldl_putIn_nil (items : List α) :
    items.foldl (fun seen item => if seen.contains item then seen else seen ++ [item]) []
      = items.eraseDups := by
  have hall : items.filter (!([] : List α).contains ·) = items :=
    List.filter_eq_self.2 fun _ _ => rfl
  rw [foldl_putIn, hall, List.nil_append]

theorem nodup_eraseDups : ∀ items : List α, items.eraseDups.Nodup
  | [] => List.nodup_nil
  | item :: rest => by
    rw [List.eraseDups_cons, List.nodup_cons]
    exact ⟨by simp, nodup_eraseDups (rest.filter (!· == item))⟩
termination_by items => items.length
decreasing_by exact Nat.lt_succ_of_le (List.length_filter_le ..)

/-- Where there are no repeats there is nothing to drop. -/
theorem eraseDups_eq_self : ∀ {items : List α}, items.Nodup → items.eraseDups = items
  | [], _ => rfl
  | item :: rest, h => by
    obtain ⟨hnew, hrest⟩ := List.nodup_cons.1 h
    have hfilter : rest.filter (!· == item) = rest := List.filter_eq_self.2 fun other hother =>
      bne_iff_ne.2 fun heq => hnew (heq ▸ hother)
    rw [List.eraseDups_cons, hfilter, eraseDups_eq_self hrest]

/-- What is told apart stays apart. -/
theorem eraseDups_map {f : α → β} : ∀ items : List α,
    (∀ a ∈ items, ∀ b ∈ items, f a = f b → a = b) →
    (items.map f).eraseDups = items.eraseDups.map f
  | [], _ => rfl
  | item :: rest, hf => by
    have hfilter : (rest.map f).filter (!· == f item) = (rest.filter (!· == item)).map f := by
      rw [List.filter_map]
      refine congrArg (List.map f) (List.filter_congr fun other hother => ?_)
      have hsame := hf other (List.mem_cons_of_mem _ hother) item List.mem_cons_self
      exact congrArg not (Bool.eq_iff_iff.2 (by simpa using ⟨hsame, congrArg f⟩))
    have hrest := eraseDups_map (rest.filter (!· == item)) fun a ha b hb =>
      hf a (List.mem_cons_of_mem _ (List.mem_filter.1 ha).1) b
        (List.mem_cons_of_mem _ (List.mem_filter.1 hb).1)
    rw [List.map_cons, List.eraseDups_cons, hfilter, hrest, List.eraseDups_cons, List.map_cons]
termination_by items => items.length
decreasing_by exact Nat.lt_succ_of_le (List.length_filter_le ..)

end

/-! ## Labels -/

/-- A set of labels is the list it was made from without the repeats, in the order of the first
occurrences. -/
theorem LabelSet.toList_ofList (labels : List Label) :
    (ofList labels).toList = labels.eraseDups := by
  rw [← foldl_putIn_nil]
  refine (List.foldl_hom toList fun s label => ?_).symm
  unfold insert contains
  split <;> rfl

/-- A set without repeats is the set of its labels. -/
theorem LabelSet.ofList_eq_self {s : LabelSet} (h : s.Distinct) : ofList s.toList = s :=
  congrArg mk ((toList_ofList s.toList).trans (eraseDups_eq_self h))

/-! ## Members -/

/-- The members of a hyperarc are the nodes it was given without the repeats. -/
theorem distinctMembers_eq (nodes : List NodeKey) : distinctMembers nodes = nodes.eraseDups :=
  foldl_putIn_nil nodes

theorem mem_distinctMembers {node : NodeKey} {nodes : List NodeKey} :
    node ∈ distinctMembers nodes ↔ node ∈ nodes := by
  rw [distinctMembers_eq, List.mem_eraseDups]

/-- A hyperarc that is made in the usual way lists no node twice. -/
theorem nodup_distinctMembers (nodes : List NodeKey) : (distinctMembers nodes).Nodup :=
  distinctMembers_eq nodes ▸ nodup_eraseDups nodes

theorem distinctMembers_eq_self {members : List NodeKey} (h : members.Nodup) :
    distinctMembers members = members :=
  (distinctMembers_eq members).trans (eraseDups_eq_self h)

end GraphGrammar
