import GraphGrammar.Proofs.Copy

/-!
# What one edit can do to the elements of a kind

To the elements of a kind an edit can do one of three things (`Registry.Edited`):
it puts one more element behind the others, it takes one out, or it changes some
where they are. What this means for the keys is told here once for all edits: which
of them are alive, what they find, and which key is issued.

Renaming changes an element where it is and keeps the index in step. Repairing the
names of an indexed registry does nothing at all (`Registry.repair_of_indexed`).

The three things are told as an inductive proposition and not as a function, since an edit
decides between them by what it finds: the removal of an element that is not there is an edit
that changes nothing. The proposition is about one kind, with the elements of any other kind out
of sight, so an edit of a graph is three of them side by side (`Edit.Performed`).
-/

namespace GraphGrammar

open Attributed

/-! ## Renaming and repairing

Both touch the index, which other changes in place do not. -/

namespace Registry

variable {κ : Kind} {α : Type} [Attributed α] {r after : Registry κ α} {key : Key κ} {name : Name}

/-- What a key finds after a renaming that is not refused. -/
theorem get?_rename (h : r.rename key name = .ok after) (other : Key κ) :
    after.get? other
      = if key = other then (r.get? other).map (renamed · name) else r.get? other := by
  unfold rename at h
  split at h
  · exact nomatch h
  rename_i a ha
  split at h
  · rename_i hsame
    cases h
    split
    · rename_i hkey
      rw [← hkey, ha, Option.map_some, ← hsame, renamed_nameOf]
    · rfl
  split at h
  · exact nomatch h
  · cases h
    exact get?_modify r key other _

/-- A renaming opens no slot and gives none up. -/
theorem length_cells_rename (h : r.rename key name = .ok after) :
    after.cells.length = r.cells.length := by
  unfold rename at h
  split at h
  · exact nomatch h
  split at h
  · cases h
    rfl
  split at h
  · exact nomatch h
  · cases h
    exact length_cells_modify ..

end Registry

namespace Graph.Indexed

variable {κ : Kind} {α : Type} [Attributed α] {r after : Registry κ α} {key : Key κ} {name : Name}

/-- Renaming keeps the index in step. The old name is free again and the new one was free before,
so every other name finds what it found. -/
theorem rename (h : Indexed r) (hrename : r.rename key name = .ok after) : Indexed after := by
  have hget := Registry.get?_rename hrename
  unfold Registry.rename at hrename
  split at hrename
  · cases hrename
  rename_i a ha
  split at hrename
  · cases hrename
    exact h
  rename_i hne
  split at hrename
  · cases hrename
  rename_i hfree
  have hnone := NameMap.contains_eq_false_iff.1 (Bool.eq_false_iff.2 hfree)
  cases hrename
  intro wanted other
  rw [hget]
  simp only [Registry.find?, NameMap.find?_insert, NameMap.find?_erase]
  by_cases hother : key = other
  · -- the element goes by its new name alone
    cases hother
    rw [if_pos rfl, ha]
    constructor
    · intro hfind
      split at hfind
      · rename_i hwanted
        exact ⟨_, rfl, (nameOf_renamed a name).trans hwanted.symm⟩
      split at hfind
      · cases hfind
      · rename_i hold
        exact absurd (h.eq_of_find? hfind (h.find?_eq_some ha)) hold
    · rintro ⟨_, heq, rfl⟩
      cases heq
      exact if_pos (nameOf_renamed a name)
  · rw [if_neg hother]
    constructor
    · intro hfind
      split at hfind
      · exact absurd (Option.some.inj hfind) hother
      split at hfind
      · cases hfind
      · exact h.exists_of_find? hfind
    · rintro ⟨b, hb, rfl⟩
      have hfind := h.find?_eq_some hb
      rw [if_neg, if_neg]
      · exact hfind
      · exact fun hold => hother (h.key_eq_of_nameOf_eq ha hb hold.symm)
      · rintro rfl
        exact Option.some_ne_none _ (hfind.symm.trans hnone)

end Graph.Indexed

namespace Registry

variable {κ : Kind} {α : Type} [Attributed α]

/-- Repairing the slots behind those of an indexed registry leads to an indexed
registry. -/
theorem indexed_repairFrom : ∀ (cells : List (Option α)) (r : Registry κ α), Graph.Indexed r →
    let done := repairFrom r.cells.length r.names cells
    Graph.Indexed (⟨r.cells ++ done.cells, done.names⟩ : Registry κ α)
  | [], r, h => by
    intro done
    show Graph.Indexed (⟨r.cells ++ [], r.names⟩ : Registry κ α)
    rw [List.append_nil]
    exact h
  | none :: rest, r, h => by
    have hrest := indexed_repairFrom rest _ h.skip
    simpa [repairFrom] using hrest
  | some a :: rest, r, h => by
    have hrest := indexed_repairFrom rest _ (h.pushUnique a)
    simpa [repairFrom, pushUnique, push, nextKey] using hrest

/-- Slots whose names are distinct and free are repaired by leaving them alone. -/
theorem repairFrom_of_distinct : ∀ (cells : List (Option α)) (index : Nat)
    (names : NameMap (Key κ)),
    ((cells.filterMap id).map nameOf).Nodup →
    (∀ a, some a ∈ cells → names.contains (nameOf a) = false) →
    (repairFrom index names cells).cells = cells ∧ (repairFrom index names cells).renamed = 0
  | [], _, _, _, _ => ⟨rfl, rfl⟩
  | none :: rest, index, names, hnodup, hfree => by
    obtain ⟨hcells, hrenamed⟩ := repairFrom_of_distinct rest (index + 1) names hnodup
      fun a ha => hfree a (List.mem_cons_of_mem _ ha)
    exact ⟨congrArg (none :: ·) hcells, hrenamed⟩
  | some a :: rest, index, names, hnodup, hfree => by
    obtain ⟨hnew, hnodup⟩ : nameOf a ∉ (rest.filterMap id).map nameOf ∧
        ((rest.filterMap id).map nameOf).Nodup := List.nodup_cons.1 hnodup
    have hname := uniqueName_of_free (hfree a List.mem_cons_self)
    obtain ⟨hcells, hrenamed⟩ := repairFrom_of_distinct rest (index + 1)
      (names.insert (nameOf a) ⟨index⟩) hnodup fun b hb => by
        have hne : nameOf b ≠ nameOf a := fun heq =>
          hnew (heq ▸ List.mem_map_of_mem (List.mem_filterMap.2 ⟨some b, hb, rfl⟩))
        rw [NameMap.contains_eq_false_iff, NameMap.find?_insert, if_neg hne]
        exact NameMap.contains_eq_false_iff.1 (hfree b (List.mem_cons_of_mem _ hb))
    unfold repairFrom
    rw [hname]
    refine ⟨?_, (if_pos rfl).trans hrenamed⟩
    show some (renamed a (nameOf a)) :: _ = _
    rw [renamed_nameOf, hcells]

omit [Attributed α] in
/-- The elements are what is in the slots, in their order. Repairing goes over slots and validity
is about elements, so the two have to be brought together. -/
theorem elements_eq_filterMap (r : Registry κ α) : r.elements = r.cells.filterMap id := by
  have hfst : r.cells.zipIdx.map Prod.fst = r.cells := List.zipIdx_map_fst 0 r.cells
  conv_rhs => rw [← hfst, List.filterMap_map]
  unfold elements entries
  rw [List.map_filterMap]
  refine List.filterMap_congr fun ⟨cell, index⟩ _ => ?_
  cases cell <;> rfl

/-- **There is nothing to repair in an indexed registry.** -/
theorem repair_of_indexed {r : Registry κ α} (h : Graph.Indexed r) : r.repair = (r, 0) := by
  have hnodup : ((r.cells.filterMap id).map nameOf).Nodup := by
    rw [← elements_eq_filterMap]
    exact h.nodup_names_elements
  obtain ⟨hcells, hrenamed⟩ := repairFrom_of_distinct (κ := κ) r.cells 0 .empty hnodup
    fun _ _ => rfl
  have hindexed := indexed_repairFrom r.cells (empty : Registry κ α) Graph.Indexed.empty
  exact Prod.ext (eq_of_cells_eq hindexed h hcells) hrenamed

/-! ## The three things

Each edit of a registry is shown to be one of the three, and what follows for keys is then shown
by cases on which one it is. -/

/-- **What one edit can do to the elements of a kind.** The first key is the one it
issues and the second the one it makes void. -/
inductive Edited (before : Registry κ α) (given : Option α) (f : Key κ → α → α) :
    Option (Key κ) → Option (Key κ) → Registry κ α → Prop
  /-- An element is put behind the others. -/
  | added (a : α) (hgiven : given = some a) (hf : ∀ key b, f key b = b) :
      Edited before given f (some before.nextKey) none (before.pushUnique a).2
  | removed {key : Key κ} {a : α} {after : Registry κ α}
      (herase : before.erase key = some (a, after))
      (hf : ∀ key b, f key b = b) : Edited before given f none (some key) after
  /-- The elements stay where they are. -/
  | changed {after : Registry κ α} (hslots : after.cells.length = before.cells.length)
      (hfinds : ∀ key, after.get? key = (before.get? key).map (f key)) :
      Edited before given f none none after

namespace Edited

variable {before after : Registry κ α} {given : Option α} {f : Key κ → α → α}
  {issued removed : Option (Key κ)}

/-- Nothing happens to the elements of the kind. -/
theorem unchanged (hf : ∀ key b, f key b = b) : Edited before given f none none before :=
  .changed rfl fun key => by rw [funext (hf key), Option.map_id']

/-- A change in place, which is made to one element and leaves the others as they are. -/
theorem modify (before : Registry κ α) (given : Option α) (key : Key κ) (f : α → α) :
    Edited before given (fun other a => if key = other then f a else a) none none
      (before.modify key f) := by
  refine .changed (length_cells_modify ..) fun other => ?_
  rw [get?_modify]
  split
  · rfl
  · exact Option.map_id'.symm

/-- A change of all elements at once, which takes none of them out. -/
theorem mapElements (before : Registry κ α) (given : Option α) (f : α → α) :
    Edited before given (fun _ => f) none none (before.mapElements f) :=
  .changed (length_cells_mapElements ..) (get?_mapElements before f)

/-- A renaming that is not refused is a change in place as well, as far as keys are concerned: it
changes the name of one element, and of an element that has the name already nothing. -/
theorem rename {key : Key κ} {name : Name} (given : Option α)
    (h : before.rename key name = .ok after) :
    Edited before given (fun other a => if key = other then renamed a name else a) none none
      after := by
  refine .changed (length_cells_rename h) fun other => ?_
  rw [get?_rename h]
  split
  · rfl
  · exact Option.map_id'.symm

/-- There is a slot more for a key that is issued, and none is given up. -/
theorem slots (h : Edited before given f issued removed after) :
    after.cells.length = before.cells.length + issued.toList.length := by
  cases h with
  | added => exact length_cells_pushUnique ..
  | removed herase => exact length_cells_erase herase
  | changed hslots => exact hslots

/-- **A key that is issued is the next one**, and it finds the element that was
given, under a name that was free. -/
theorem of_issued (h : Edited before given f issued removed after) {key : Key κ}
    (hkey : issued = some key) : key = before.nextKey ∧ ∃ a, given = some a ∧
      after.get? key = some (renamed a (uniqueName before.names (nameOf a))) := by
  cases h with
  | added a hgiven =>
    cases hkey
    refine ⟨rfl, a, hgiven, ?_⟩
    rw [get?_pushUnique, if_pos rfl]
  | removed => exact nomatch hkey
  | changed => exact nomatch hkey

/-- **An element that is not removed stays under its key.** -/
theorem finds (h : Edited before given f issued removed after) {key : Key κ} {a : α}
    (ha : before.get? key = some a) (hkept : removed ≠ some key) :
    after.get? key = some (f key a) := by
  cases h with
  | added b _ hf =>
    rw [get?_pushUnique, if_neg, ha, hf]
    rintro rfl
    exact nomatch ha.symm.trans (get?_nextKey before)
  | removed herase hf =>
    rw [get?_erase herase, if_neg fun heq => hkept (congrArg some heq.symm), ha, hf]
  | changed _ hfinds => rw [hfinds, ha, Option.map_some]

/-- What is alive was alive or is new, and was not removed. -/
theorem contains_iff (h : Edited before given f issued removed after) {key : Key κ} :
    after.contains key = true ↔
      (before.contains key = true ∨ issued = some key) ∧ removed ≠ some key := by
  unfold contains
  cases h with
  | added a =>
    rw [get?_pushUnique]
    split
    · rename_i hkey
      exact ⟨fun _ => ⟨.inr (congrArg some hkey.symm), nofun⟩, fun _ => rfl⟩
    · rename_i hkey
      refine ⟨fun h => ⟨.inl h, nofun⟩, fun h => h.1.resolve_right fun heq => hkey ?_⟩
      exact (Option.some.inj heq).symm
  | removed herase =>
    rw [get?_erase herase]
    split
    · rename_i hkey
      exact ⟨nofun, fun h => absurd (congrArg some hkey.symm) h.2⟩
    · rename_i hkey
      refine ⟨fun h => ⟨.inl h, fun heq => hkey (Option.some.inj heq).symm⟩, fun h => ?_⟩
      exact h.1.resolve_right nofun
  | changed _ hfinds =>
    rw [hfinds, Option.isSome_map]
    exact ⟨fun h => ⟨.inl h, nofun⟩, fun h => h.1.resolve_right nofun⟩

/-- What is removed was alive. -/
theorem contains_of_removed (h : Edited before given f issued removed after) {key : Key κ}
    (hkey : removed = some key) : before.contains key = true := by
  cases h with
  | added => exact nomatch hkey
  | removed herase =>
    cases hkey
    exact Option.isSome_iff_ne_none.2 fun hnone =>
      nomatch (erase_eq_none_iff.2 hnone).symm.trans herase
  | changed => exact nomatch hkey

end Edited

end Registry

end GraphGrammar
