import Mathlib.Data.List.Sort
import GraphGrammar.Graph.Basic
import GraphGrammar.Proofs.FreeName

/-!
# What the registry operations keep

A registry is *indexed* if its index maps exactly the names of its elements to
their keys. Every operation that inserts, removes or changes an element keeps
a registry indexed, provided an element put in has a free name and a changed
element keeps its own. The index then tells the truth about the elements: no
two of them have one name, and there are as many names as elements.

A registry is *compact* if none of its slots is empty; its keys are then the
numbers below its length. `Registry.ofElements` builds nothing else.

Both properties are about what can be found in a registry and not about how it came to be, so
they can be carried through any sequence of operations. Being indexed is half of what makes a
graph well formed (`Graph.WellFormed`); being compact is what makes a copy or a rule readable by
place: the lists that a rule or an option keeps for its elements are as long as a compact
registry has slots, and the key of an element is its place in them.
-/

namespace GraphGrammar

open Attributed

namespace Registry

variable {κ : Kind} {α β : Type}

/-! ## Keys and slots

Keys are numbers of slots, so what is found lies below the number of slots, the next key finds
nothing, and the live keys are listed in ascending order. Since the order is fixed, a list is
known by its members (`keys_eq_of_mem_iff`, `entries_eq_of_mem_iff`): two registries that find
the same under every key list the same. -/

theorem lt_of_get?_eq_some {r : Registry κ α} {key : Key κ} {a : α} (h : r.get? key = some a) :
    key.index < r.cells.length := by
  unfold get? at h
  by_contra hge
  rw [List.getElem?_eq_none (Nat.le_of_not_lt hge)] at h
  exact nomatch h

/-- Beyond the slots nothing is found. -/
theorem get?_eq_none_of_le {r : Registry κ α} {key : Key κ} (h : r.cells.length ≤ key.index) :
    r.get? key = none := by
  unfold get?
  rw [List.getElem?_eq_none h]
  rfl

/-- The key that the next element gets finds nothing yet. So a new element is told from all
others by its key alone. -/
@[simp] theorem get?_nextKey (r : Registry κ α) : r.get? r.nextKey = none :=
  get?_eq_none_of_le (Nat.le_refl _)

@[simp] theorem get?_empty (key : Key κ) : (empty : Registry κ α).get? key = none := rfl

theorem contains_iff {r : Registry κ α} {key : Key κ} :
    r.contains key = true ↔ ∃ a, r.get? key = some a := Option.isSome_iff_exists

theorem lt_of_contains {r : Registry κ α} {key : Key κ} (h : r.contains key = true) :
    key.index < r.cells.length := by
  obtain ⟨a, ha⟩ := contains_iff.1 h
  exact lt_of_get?_eq_some ha

/-- The elements are listed in the order of their slots, which is the order of insertion. -/
theorem pairwise_entries (r : Registry κ α) :
    r.entries.Pairwise fun a b => a.1.index < b.1.index := by
  have hindices : (r.cells.zipIdx.map Prod.snd).Pairwise (· < ·) := by
    rw [List.zipIdx_map_snd]
    exact List.pairwise_lt_range'
  rw [List.pairwise_map] at hindices
  refine List.pairwise_filterMap.2 (hindices.imp fun {p q} hlt a ha b hb => ?_)
  obtain ⟨_, _, rfl⟩ := Option.map_eq_some_iff.1 ha
  obtain ⟨_, _, rfl⟩ := Option.map_eq_some_iff.1 hb
  exact hlt

theorem pairwise_keys (r : Registry κ α) : r.keys.Pairwise fun a b => a.index < b.index :=
  List.pairwise_map.2 r.pairwise_entries

theorem nodup_of_ascending {keys : List (Key κ)}
    (h : keys.Pairwise fun a b => a.index < b.index) : keys.Nodup :=
  h.imp fun {a b} hlt (heq : a = b) => Nat.lt_irrefl b.index (heq ▸ hlt)

theorem nodup_keys (r : Registry κ α) : r.keys.Nodup := nodup_of_ascending r.pairwise_keys

/-- **What is there is listed in one way**, in ascending order. -/
theorem keys_eq_of_mem_iff {r : Registry κ α} {keys : List (Key κ)}
    (hascending : keys.Pairwise fun a b => a.index < b.index)
    (h : ∀ key, key ∈ keys ↔ r.contains key = true) : r.keys = keys :=
  r.pairwise_keys.eq_of_mem_iff hascending fun key => mem_keys_iff.trans (h key).symm

/-- **A registry lists its elements in one way**: an ascending list that has just what the keys
find is the list of the registry. Facts about lists are reduced to facts about single keys by
this. -/
theorem entries_eq_of_mem_iff {r : Registry κ α} {entries : List (Key κ × α)}
    (hascending : entries.Pairwise fun a b => a.1.index < b.1.index)
    (h : ∀ key a, (key, a) ∈ entries ↔ r.get? key = some a) : r.entries = entries :=
  r.pairwise_entries.eq_of_mem_iff hascending fun entry =>
    mem_entries_iff.trans (h entry.1 entry.2).symm

/-- Any selection of the elements has each of them once. Counts over a selection are therefore
counts of elements. -/
theorem nodup_keys_filter (r : Registry κ α) (p : Key κ × α → Bool) :
    ((r.entries.filter p).map Prod.fst).Nodup :=
  r.nodup_keys.sublist (List.filter_sublist.map Prod.fst)

theorem mem_elements_iff {r : Registry κ α} {a : α} :
    a ∈ r.elements ↔ ∃ key, r.get? key = some a := by
  unfold elements
  rw [List.mem_map]
  constructor
  · rintro ⟨⟨key, _⟩, hmem, rfl⟩
    exact ⟨key, mem_entries_iff.1 hmem⟩
  · rintro ⟨key, h⟩
    exact ⟨(key, a), mem_entries_iff.2 h, rfl⟩

/-- The elements stand in the order of their keys. -/
theorem getElem?_elements {r : Registry κ α} {place : Nat} (h : place < r.keys.length) :
    r.elements[place]? = r.get? r.keys[place] := by
  have hentry : place < r.entries.length := by rwa [keys, List.length_map] at h
  have hfound := mem_entries_iff.1 (List.getElem_mem hentry)
  simp only [elements, keys, List.getElem?_map, List.getElem_map, List.getElem?_eq_getElem hentry,
    Option.map_some]
  exact hfound.symm

/-! ## What a key finds after an operation

Changing elements in place leaves the slots, the keys and what is alive as they are. -/

theorem get?_mapElements (r : Registry κ α) (f : α → α) (key : Key κ) :
    (r.mapElements f).get? key = (r.get? key).map f := by
  unfold get? mapElements
  rw [List.getElem?_map]
  cases r.cells[key.index]? with
  | none => rfl
  | some cell => rfl

@[simp] theorem contains_mapElements (r : Registry κ α) (f : α → α) (key : Key κ) :
    (r.mapElements f).contains key = r.contains key := by
  rw [contains, get?_mapElements, Option.isSome_map, contains]

/-- The elements are changed where they are listed. -/
theorem entries_mapElements (r : Registry κ α) (f : α → α) :
    (r.mapElements f).entries = r.entries.map fun (key, a) => (key, f a) := by
  unfold entries mapElements
  rw [List.zipIdx_map, List.filterMap_map, List.map_filterMap]
  refine List.filterMap_congr fun ⟨cell, index⟩ _ => ?_
  cases cell <;> rfl

@[simp] theorem keys_mapElements (r : Registry κ α) (f : α → α) :
    (r.mapElements f).keys = r.keys := by
  rw [keys, entries_mapElements, List.map_map, keys]
  rfl

/-- Changing an element in place makes nothing come or go. -/
theorem contains_modify (r : Registry κ α) (key other : Key κ) (f : α → α) :
    (r.modify key f).contains other = r.contains other := by
  unfold contains
  rw [get?_modify]
  split
  · exact Option.isSome_map
  · rfl

@[simp] theorem keys_modify (r : Registry κ α) (key : Key κ) (f : α → α) :
    (r.modify key f).keys = r.keys :=
  keys_eq_of_mem_iff r.pairwise_keys fun other => by rw [contains_modify, mem_keys_iff]

/-- Changing an element in place opens no slot, so the keys of elements that are added later are
the same as without the change. -/
@[simp] theorem length_cells_modify (r : Registry κ α) (key : Key κ) (f : α → α) :
    (r.modify key f).cells.length = r.cells.length := List.length_modify ..

@[simp] theorem length_cells_mapElements (r : Registry κ α) (f : α → α) :
    (r.mapElements f).cells.length = r.cells.length := List.length_map _

variable [Attributed α]

@[simp] theorem length_cells_pushUnique (r : Registry κ α) (a : α) :
    (r.pushUnique a).2.cells.length = r.cells.length + 1 := List.length_append

/-- An element that is put in is found under the next key, by a name that was free, and every
other key finds what it found. -/
theorem get?_pushUnique (r : Registry κ α) (a : α) (key : Key κ) :
    (r.pushUnique a).2.get? key
      = if key = r.nextKey then some (renamed a (uniqueName r.names (nameOf a)))
        else r.get? key := get?_push r _ key

/-- A slot that is emptied is still there. This is why no key is issued twice. -/
theorem length_cells_erase {r after : Registry κ α} {key : Key κ} {a : α}
    (h : r.erase key = some (a, after)) : after.cells.length = r.cells.length := by
  unfold erase at h
  obtain ⟨_, _, heq⟩ := Option.map_eq_some_iff.1 h
  cases heq
  exact List.length_set

/-- Only what is not there cannot be removed. -/
theorem erase_eq_none_iff {r : Registry κ α} {key : Key κ} :
    r.erase key = none ↔ r.get? key = none := Option.map_eq_none_iff

end Registry

/-! ## The index tells the truth

To be indexed is an equivalence: a name leads to a key exactly if the element under the key bears
the name. That names are distinct follows, since a name leads to one key. -/

namespace Graph

namespace Indexed

variable {κ : Kind} {α : Type} [Attributed α] {r : Registry κ α}

/-- In an indexed registry every element is found by its name. -/
theorem find?_eq_some (h : Indexed r) {key : Key κ} {a : α} (ha : r.get? key = some a) :
    r.find? (nameOf a) = some key := (h _ _).2 ⟨a, ha, rfl⟩

/-- No two elements have one name. -/
theorem key_eq_of_nameOf_eq (h : Indexed r) {key other : Key κ} {a b : α}
    (ha : r.get? key = some a) (hb : r.get? other = some b) (heq : nameOf a = nameOf b) :
    key = other := by
  have hkey := h.find?_eq_some ha
  rw [heq, h.find?_eq_some hb] at hkey
  exact (Option.some.inj hkey).symm

/-- In an indexed registry a name leads to an element that bears it. -/
theorem exists_of_find? (h : Indexed r) {name : Name} {key : Key κ}
    (hfind : r.find? name = some key) : ∃ a, r.get? key = some a ∧ nameOf a = name :=
  (h name key).1 hfind

/-- An element has one name. -/
theorem eq_of_find? (h : Indexed r) {name other : Name} {key : Key κ}
    (hname : r.find? name = some key) (hother : r.find? other = some key) : name = other := by
  obtain ⟨a, ha, rfl⟩ := h.exists_of_find? hname
  obtain ⟨b, hb, rfl⟩ := h.exists_of_find? hother
  rw [Option.some.inj (ha.symm.trans hb)]

/-- The names of the elements, in the order of the slots, are distinct. -/
theorem nodup_names_elements (h : Indexed r) : (r.elements.map nameOf).Nodup := by
  unfold Registry.elements
  rw [List.map_map]
  refine List.pairwise_map.2 (r.pairwise_entries.imp_of_mem fun {p q} hp hq hlt heq => ?_)
  have hkey := h.key_eq_of_nameOf_eq (Registry.mem_entries_iff.1 hp)
    (Registry.mem_entries_iff.1 hq) heq
  exact Nat.lt_irrefl _ (congrArg Key.index hkey ▸ hlt)

/-- The index has the names of the elements. -/
theorem contains_iff (h : Indexed r) {name : Name} :
    r.names.contains name = true ↔ ∃ a ∈ r.elements, nameOf a = name := by
  rw [NameMap.contains_iff]
  constructor
  · rintro ⟨key, hfind⟩
    obtain ⟨a, ha, heq⟩ := h.exists_of_find? hfind
    exact ⟨a, Registry.mem_elements_iff.2 ⟨key, ha⟩, heq⟩
  · rintro ⟨a, hmem, rfl⟩
    obtain ⟨key, ha⟩ := Registry.mem_elements_iff.1 hmem
    exact ⟨key, h.find?_eq_some ha⟩

/-- A name of the index is the name of the element found under it. -/
theorem isSome_getNamed? (h : Indexed r) (name : Name) :
    (r.getNamed? name).isSome = r.names.contains name := by
  unfold Registry.getNamed? NameMap.contains
  cases hfind : r.find? name with
  | none => exact (congrArg Option.isSome hfind).symm
  | some key =>
    obtain ⟨a, ha, -⟩ := h.exists_of_find? hfind
    rw [show r.names.find? name = some key from hfind, Option.bind_some, ha]
    rfl

/-- **The count counts the elements.** -/
theorem count_eq (h : Indexed r) : r.count = r.keys.length := by
  have hperm : r.names.names.Perm (r.elements.map nameOf) := by
    refine (List.perm_ext_iff_of_nodup r.names.nodup_names h.nodup_names_elements).2 fun name => ?_
    rw [NameMap.mem_names_iff, h.contains_iff, List.mem_map]
  have hlength := hperm.length_eq
  rw [NameMap.length_names, List.length_map, Registry.elements, List.length_map] at hlength
  rw [Registry.count, hlength, Registry.keys, List.length_map]

/-! ### Operations keep it so

There is a lemma for each operation, and what it asks is what the operation is asked for by its
callers: a free name for a new element, an unchanged one for a change in place. -/

theorem empty : Indexed (Registry.empty : Registry κ α) := by
  intro name key
  constructor
  · intro h
    exact nomatch h
  · rintro ⟨a, ha, _⟩
    exact nomatch ha

/-- An element whose name is free keeps the index in step. Both directions are a case analysis on
whether the name, or the key, is the new one. -/
theorem push (h : Indexed r) {a : α} (hfree : r.names.contains (nameOf a) = false) :
    Indexed (r.push a).2 := by
  intro name key
  have hfind : (r.push a).2.find? name
      = if name = nameOf a then some r.nextKey else r.find? name :=
    NameMap.find?_insert ..
  rw [hfind, Registry.get?_push]
  by_cases hname : name = nameOf a
  · rw [if_pos hname]
    constructor
    · intro heq
      cases heq
      exact ⟨a, if_pos rfl, hname.symm⟩
    · -- a name that was free is the name of nothing else
      rintro ⟨b, hb, heq⟩
      by_cases hkey : key = r.nextKey
      · rw [hkey]
      · rw [if_neg hkey] at hb
        have hnone := NameMap.contains_eq_false_iff.1 hfree
        rw [← hname, ← heq] at hnone
        exact absurd (h.find?_eq_some hb) (by rw [Registry.find?, hnone]; exact nofun)
  · rw [if_neg hname]
    constructor
    · intro hfound
      obtain ⟨b, hb, heq⟩ := h.exists_of_find? hfound
      refine ⟨b, ?_, heq⟩
      rw [if_neg fun hkey => ?_, hb]
      rw [hkey, Registry.get?_nextKey] at hb
      exact nomatch hb
    · rintro ⟨b, hb, heq⟩
      by_cases hkey : key = r.nextKey
      · rw [if_pos hkey] at hb
        cases hb
        exact absurd heq.symm hname
      · rw [if_neg hkey] at hb
        exact (h name key).2 ⟨b, hb, heq⟩

/-- Numbering a name that is taken makes it free, so this needs no condition at all. -/
theorem pushUnique (h : Indexed r) (a : α) : Indexed (r.pushUnique a).2 :=
  h.push (by rw [nameOf_renamed]; exact uniqueName_free r.names (nameOf a))

/-- The name of an element that is removed is free again: no other element bears it, so striking
it off the index takes nothing away from another. -/
theorem erase (h : Indexed r) {after : Registry κ α} {key : Key κ} {a : α}
    (herase : r.erase key = some (a, after)) : Indexed after := by
  obtain ⟨ha, hnames⟩ : r.get? key = some a ∧ after.names = r.names.erase (nameOf a) := by
    unfold Registry.erase at herase
    obtain ⟨b, hb, heq⟩ := Option.map_eq_some_iff.1 herase
    cases heq
    exact ⟨hb, rfl⟩
  intro name other
  have hfind : after.find? name = if name = nameOf a then none else r.find? name := by
    rw [Registry.find?, hnames]
    exact NameMap.find?_erase ..
  rw [hfind, Registry.get?_erase herase]
  constructor
  · intro hfound
    split at hfound
    · exact nomatch hfound
    · rename_i hname
      obtain ⟨b, hb, heq⟩ := h.exists_of_find? hfound
      refine ⟨b, ?_, heq⟩
      rw [if_neg fun hkey => ?_, hb]
      subst hkey
      rw [ha] at hb
      cases hb
      exact hname heq.symm
  · rintro ⟨b, hb, heq⟩
    split at hb
    · exact nomatch hb
    · rename_i hkey
      rw [if_neg fun hname => hkey ?_]
      · exact (h name other).2 ⟨b, hb, heq⟩
      · exact h.key_eq_of_nameOf_eq hb ha (heq.trans hname)

/-- A registry with the same index whose elements have the same names under the
same keys. -/
theorem of_names_eq (h : Indexed r) {after : Registry κ α} (hnames : after.names = r.names)
    (hget : ∀ key, (after.get? key).map nameOf = (r.get? key).map nameOf) : Indexed after := by
  intro name key
  rw [Registry.find?, hnames]
  refine (h name key).trans ?_
  have hiff : ∀ o : Option α, (∃ a, o = some a ∧ nameOf a = name) ↔ o.map nameOf = some name :=
    fun o => Option.map_eq_some_iff.symm
  rw [hiff, hiff, hget key]

/-- One more empty slot changes nothing that the index speaks of. -/
theorem skip (h : Indexed r) : Indexed (⟨r.cells ++ [none], r.names⟩ : Registry κ α) := by
  refine h.of_names_eq rfl fun key => congrArg _ ?_
  rw [Registry.get?_snoc]
  split
  · rename_i heq
    rw [heq, Registry.get?_nextKey]
  · rfl

/-- A change in place keeps the index in step if it keeps the name of the element it is made to.
It may do anything to elements that are not there. -/
theorem modify (h : Indexed r) {key : Key κ} {f : α → α}
    (hf : ∀ a, r.get? key = some a → nameOf (f a) = nameOf a) : Indexed (r.modify key f) := by
  refine h.of_names_eq rfl fun other => ?_
  rw [Registry.get?_modify]
  split
  · rename_i hkey
    cases ha : r.get? other with
    | none => rfl
    | some a => exact congrArg some (hf a (hkey ▸ ha))
  · rfl

/-- The same for a change of all elements, as when arcs are detached from a node that is removed.
-/
theorem mapElements (h : Indexed r) {f : α → α} (hf : ∀ a, nameOf (f a) = nameOf a) :
    Indexed (r.mapElements f) := by
  refine h.of_names_eq rfl fun key => ?_
  rw [Registry.get?_mapElements, Option.map_map]
  exact congrArg (Option.map · _) (funext hf)

end Indexed

end Graph

/-! ## Compact registries

A registry without empty slots is as good as the list of its elements. Graphs that were copied or
read are of this sort, and so are the sides of a rule. -/

namespace Registry

variable {κ : Kind} {α : Type}

/-- No slot is empty. -/
def Compact (r : Registry κ α) : Prop := ∀ cell ∈ r.cells, cell.isSome = true

namespace Compact

variable {r : Registry κ α}

theorem exists_get? (h : r.Compact) {key : Key κ} (hlt : key.index < r.cells.length) :
    ∃ a, r.get? key = some a := by
  obtain ⟨a, ha⟩ := Option.isSome_iff_exists.1 (h _ (List.getElem_mem hlt))
  refine ⟨a, ?_⟩
  rw [get?, List.getElem?_eq_getElem hlt, ha]
  rfl

/-- In a compact registry the live keys are told by a comparison of numbers. -/
theorem contains_iff_lt (h : r.Compact) {key : Key κ} :
    r.contains key = true ↔ key.index < r.cells.length :=
  ⟨lt_of_contains, fun hlt => contains_iff.2 (h.exists_get? hlt)⟩

/-- The keys of a compact registry are the numbers of its slots. -/
theorem keys_eq (h : r.Compact) : r.keys = (List.range r.cells.length).map Key.mk := by
  refine keys_eq_of_mem_iff (List.pairwise_map.2 List.pairwise_lt_range) fun key => ?_
  rw [h.contains_iff_lt, List.mem_map]
  constructor
  · rintro ⟨i, hi, rfl⟩
    exact List.mem_range.1 hi
  · intro hlt
    exact ⟨key.index, List.mem_range.2 hlt, rfl⟩

/-- A list of places that was made from the keys of a compact registry. -/
theorem join_getElem?_map_keys {β : Type} (h : r.Compact) (f : Key κ → Option β) (key : Key κ) :
    ((r.keys.map f)[key.index]?).join = if r.contains key then f key else none := by
  rw [h.keys_eq, List.map_map, List.getElem?_map]
  by_cases hlt : key.index < r.cells.length
  · rw [if_pos (h.contains_iff_lt.2 hlt), List.getElem?_range hlt]
    rfl
  · rw [if_neg fun hkey => hlt (h.contains_iff_lt.1 hkey),
      List.getElem?_eq_none (by simpa using hlt)]
    rfl

theorem length_keys (h : r.Compact) : r.keys.length = r.cells.length := by
  rw [h.keys_eq, List.length_map, List.length_range]

/-- The elements of a compact registry fill its slots. -/
theorem cells_eq (h : r.Compact) : r.cells = r.elements.map some := by
  have hcells : ∀ (cells : List (Option α)) (n : Nat), (∀ cell ∈ cells, cell.isSome = true) →
      cells = (((cells.zipIdx n).filterMap fun slot =>
        slot.1.map fun a => ((⟨slot.2⟩ : Key κ), a)).map Prod.snd).map some := by
    intro cells
    induction cells with
    | nil => exact fun _ _ => rfl
    | cons cell rest ih =>
      intro n hall
      obtain ⟨a, rfl⟩ := Option.isSome_iff_exists.1 (hall _ List.mem_cons_self)
      have hrest := ih (n + 1) fun c hc => hall c (List.mem_cons_of_mem _ hc)
      rw [List.zipIdx_cons, List.filterMap_cons]
      exact congrArg (some a :: ·) hrest
  exact hcells r.cells 0 h

/-- They stand in the places of their keys. -/
theorem getElem?_elements (h : r.Compact) {key : Key κ} {a : α} (ha : r.get? key = some a) :
    r.elements[key.index]? = some a := by
  rw [get?, h.cells_eq, List.getElem?_map] at ha
  cases hplace : r.elements[key.index]? with
  | none =>
    rw [hplace] at ha
    exact nomatch ha
  | some b =>
    rw [hplace] at ha
    exact ha

/-- In a compact indexed registry the count, the number of slots and the number of elements
agree. The lists of an
option are as long as the counts of L say, so they have a place for each element of it. -/
theorem count_eq [Attributed α] (h : r.Compact) (hindexed : Graph.Indexed r) :
    r.count = r.cells.length := hindexed.count_eq.trans h.length_keys

end Compact

variable [Attributed α]

/-- Putting elements in opens no gap. Only removal does. -/
theorem Compact.pushUnique {r : Registry κ α} (h : r.Compact) (a : α) :
    (r.pushUnique a).2.Compact := by
  intro cell hcell
  rcases List.mem_append.1 (show cell ∈ r.cells ++ [some _] from hcell) with hcell | hcell
  · exact h cell hcell
  · rw [List.mem_singleton.1 hcell]
    rfl

/-- What is built from a list of elements is compact and indexed. -/
theorem compact_indexed_ofElements (elements : List α) :
    (ofElements elements : Registry κ α).Compact
      ∧ Graph.Indexed (ofElements elements : Registry κ α)
      ∧ (ofElements elements : Registry κ α).cells.length = elements.length := by
  have hfold : ∀ (elements : List α) (r : Registry κ α), r.Compact → Graph.Indexed r →
      let built := elements.foldl (fun r a => (r.pushUnique a).2) r
      built.Compact ∧ Graph.Indexed built
        ∧ built.cells.length = r.cells.length + elements.length := by
    intro elements
    induction elements with
    | nil => exact fun r hc hi => ⟨hc, hi, rfl⟩
    | cons a rest ih =>
      intro r hc hi
      obtain ⟨hc', hi', hlength⟩ := ih _ (hc.pushUnique a) (hi.pushUnique a)
      refine ⟨hc', hi', ?_⟩
      rw [List.foldl_cons, hlength, length_cells_pushUnique, List.length_cons]
      omega
  obtain ⟨hc, hi, hlength⟩ := hfold elements empty (by intro cell h; cases h) Graph.Indexed.empty
  exact ⟨hc, hi, by rw [ofElements, hlength]; exact Nat.zero_add _⟩

end Registry

end GraphGrammar
