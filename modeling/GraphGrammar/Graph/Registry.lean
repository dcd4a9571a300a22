import GraphGrammar.Graph.Failure

/-!
# The elements of one kind

A `Registry` holds the elements of one kind of a graph in numbered slots. A
new element gets a new slot, removing an element empties its slot, and no slot
is filled twice, so a key refers to one element forever and listing the live
elements in the order of their slots lists them in the order of insertion.

Beside the slots the registry keeps an index from names to keys. Insertion,
removal and renaming keep it in step with the elements. `modify` does not: it
may replace an element by one of another name behind the index, and look-ups
by name and the count go by the index until `repair` builds it anew.

The list of live elements and the look-up by key tell the same thing
(`mem_entries_iff`), so what an operation does is said once, as what a key
finds afterwards (`get?_modify`, `get?_push`, `get?_erase`).
-/

namespace GraphGrammar

open Attributed

/-- The elements of a kind with the index of their names. -/
structure Registry (κ : Kind) (α : Type) where
  cells : List (Option α) := []
  names : NameMap (Key κ) := .empty

namespace Registry

variable {κ : Kind} {α β : Type}

/-- The registry without slots. -/
def empty : Registry κ α := {}

/-- The live element a key refers to. -/
def get? (r : Registry κ α) (key : Key κ) : Option α := (r.cells[key.index]?).join

/-- Whether a key refers to a live element. -/
def contains (r : Registry κ α) (key : Key κ) : Bool := (r.get? key).isSome

/-- The live elements with their keys, in the order of the slots. -/
def entries (r : Registry κ α) : List (Key κ × α) :=
  r.cells.zipIdx.filterMap fun (cell, index) => cell.map fun a => (⟨index⟩, a)

/-- The keys of the live elements, ascending. -/
def keys (r : Registry κ α) : List (Key κ) := r.entries.map Prod.fst

/-- The live elements in the order of the slots. -/
def elements (r : Registry κ α) : List α := r.entries.map Prod.snd

/-- The key under a name of the index. -/
def find? (r : Registry κ α) (name : Name) : Option (Key κ) := r.names.find? name

/-- The element under a name of the index. -/
def getNamed? (r : Registry κ α) (name : Name) : Option α := (r.find? name).bind r.get?

/-- The number of names in the index. -/
def count (r : Registry κ α) : Nat := r.names.size

/-- The key the next new element gets. -/
def nextKey (r : Registry κ α) : Key κ := ⟨r.cells.length⟩

/-- Changes the element in a slot and leaves the index alone. -/
def modify (r : Registry κ α) (key : Key κ) (f : α → α) : Registry κ α :=
  { r with cells := r.cells.modify key.index (·.map f) }

/-- Changes every element and leaves the index alone. -/
def mapElements (r : Registry κ α) (f : α → α) : Registry κ α :=
  { r with cells := r.cells.map (·.map f) }

/-! ## What a key finds

A registry is read in two ways: by a key, or by going over the elements with their keys. The two
agree, and changes are described by what a key finds afterwards. -/

/-- **A key with its element is listed exactly when the key finds the
element.** -/
theorem mem_entries_iff {r : Registry κ α} {key : Key κ} {a : α} :
    (key, a) ∈ r.entries ↔ r.get? key = some a := by
  unfold entries get?
  rw [List.mem_filterMap]
  constructor
  · rintro ⟨⟨cell, index⟩, hmem, heq⟩
    have hcell := List.mem_zipIdx_iff_getElem?.1 hmem
    cases cell with
    | none => simp at heq
    | some b =>
      cases heq
      simpa using congrArg Option.join hcell
  · intro h
    refine ⟨(some a, key.index), List.mem_zipIdx_iff_getElem?.2 ?_, rfl⟩
    cases hcell : r.cells[key.index]? with
    | none => simp [hcell] at h
    | some cell => simpa [hcell] using h

/-- A key is listed exactly when it is alive. -/
theorem mem_keys_iff {r : Registry κ α} {key : Key κ} :
    key ∈ r.keys ↔ r.contains key = true := by
  unfold keys contains
  rw [List.mem_map, Option.isSome_iff_exists]
  constructor
  · rintro ⟨⟨_, a⟩, hmem, rfl⟩
    exact ⟨a, mem_entries_iff.1 hmem⟩
  · rintro ⟨a, h⟩
    exact ⟨(key, a), mem_entries_iff.2 h, rfl⟩

/-- A change reaches one element. Whether the key is alive does not matter: what is not there is
not changed. -/
theorem get?_modify (r : Registry κ α) (key other : Key κ) (f : α → α) :
    (r.modify key f).get? other = if key = other then (r.get? other).map f else r.get? other := by
  unfold get? modify
  rw [List.getElem?_modify]
  by_cases h : key = other
  · subst h
    rw [if_pos rfl]
    cases r.cells[key.index]? with
    | none => simp
    | some cell => simp
  · rw [if_neg h]
    simp [Key.index_ne h]

/-- What a key finds after one more slot, filled or empty. -/
theorem get?_snoc (r : Registry κ α) (cell : Option α) (names : NameMap (Key κ)) (key : Key κ) :
    (⟨r.cells ++ [cell], names⟩ : Registry κ α).get? key
      = if key = r.nextKey then cell else r.get? key := by
  unfold get?
  split
  · rename_i heq
    simp [heq, nextKey]
  · rename_i hne
    have hindex : key.index ≠ r.cells.length := Key.index_ne hne
    rcases Nat.lt_or_gt_of_ne hindex with hlt | hgt
    · simp [List.getElem?_append_left hlt]
    · simp [List.getElem?_eq_none (Nat.le_of_lt hgt), List.getElem?_append_right (Nat.le_of_lt hgt),
        Nat.sub_ne_zero_of_lt hgt]

/-! ## Insertion, removal and renaming

Slots are never used twice: an element goes behind the last slot, and removing it leaves the slot
empty. So a key finds its element or nothing, and never another one. -/

variable [Attributed α]

/-- Puts an element into a new slot and under its name into the index. -/
def push (r : Registry κ α) (a : α) : Key κ × Registry κ α :=
  (r.nextKey, ⟨r.cells ++ [some a], r.names.insert (nameOf a) r.nextKey⟩)

/-- A new element is found under the key that was the next one, and nothing else changes. -/
theorem get?_push (r : Registry κ α) (a : α) (key : Key κ) :
    (r.push a).2.get? key = if key = r.nextKey then some a else r.get? key :=
  r.get?_snoc (some a) _ key

/-- Puts an element into a new slot, renaming it if its name is taken. -/
def pushUnique (r : Registry κ α) (a : α) : Key κ × Registry κ α :=
  r.push (renamed a (uniqueName r.names (nameOf a)))

/-- Empties a slot and forgets the name of the element that was in it. -/
def erase (r : Registry κ α) (key : Key κ) : Option (α × Registry κ α) :=
  (r.get? key).map fun a => (a, ⟨r.cells.set key.index none, r.names.erase (nameOf a)⟩)

/-- What is removed is not found any more, and everything else is found as before. -/
theorem get?_erase {r after : Registry κ α} {key : Key κ} {a : α}
    (h : r.erase key = some (a, after)) (other : Key κ) :
    after.get? other = if other = key then none else r.get? other := by
  unfold erase at h
  obtain ⟨b, hb, heq⟩ := Option.map_eq_some_iff.1 h
  cases heq
  unfold get?
  rw [List.getElem?_set]
  by_cases hkey : other = key
  · subst hkey
    rw [if_pos rfl, if_pos rfl]
    split <;> rfl
  · rw [if_neg (Key.index_ne hkey).symm, if_neg hkey]

/-- Renames an element. A name that the index holds is refused. -/
def rename (r : Registry κ α) (key : Key κ) (name : Name) : Outcome GraphError (Registry κ α) :=
  match r.get? key with
  | none => .fail (.unknown κ key)
  | some a =>
    if nameOf a = name then .ok r
    else if r.names.contains name then .fail (.duplicateName κ name)
    else
      let moved := r.modify key (renamed · name)
      .ok { moved with names := (r.names.erase (nameOf a)).insert name key }

/-! ## Whole-registry passes

These go over the elements in the order of their slots, and a name is numbered if it was seen
before on the way. -/

/-- A registry made of the elements of a list, each under its own name if it
is free and otherwise numbered. -/
def ofElements (elements : List α) : Registry κ α :=
  elements.foldl (fun r a => (r.pushUnique a).2) empty

/-- What repairing a run of slots leads to. -/
structure Repair (κ : Kind) (α : Type) where
  cells : List (Option α)
  names : NameMap (Key κ)
  /-- How many elements got another name. -/
  renamed : Nat

/-- Gives the elements of the slots from `index` on names that are distinct
from each other and from those already in use, changing only the names that
are in use. -/
def repairFrom (index : Nat) (names : NameMap (Key κ)) : List (Option α) → Repair κ α
  | [] => ⟨[], names, 0⟩
  | none :: rest =>
    let after := repairFrom (index + 1) names rest
    { after with cells := none :: after.cells }
  | some a :: rest =>
    let name := uniqueName names (nameOf a)
    let after := repairFrom (index + 1) (names.insert name ⟨index⟩) rest
    { after with
      cells := some (Attributed.renamed a name) :: after.cells
      renamed := if name = nameOf a then after.renamed else after.renamed + 1 }

/-- Builds the index anew from the elements, numbering the name of every
element that repeats the name of an earlier one. Also tells how many were
renamed. -/
def repair (r : Registry κ α) : Registry κ α × Nat :=
  let done := repairFrom 0 .empty r.cells
  (⟨done.cells, done.names⟩, done.renamed)

end Registry

end GraphGrammar
