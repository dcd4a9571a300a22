/-!
# Finite maps keyed by names

Names are strings ordered by code point. A `NameMap` is a finite map from
names, kept as the list of its entries in ascending order of name. The order
is part of the type, so a map has one representation only: two maps that
answer every question alike are equal (`NameMap.ext_find?`), and the entries
of a map are listed in an order that does not depend on its history.

The last section chooses a *free* name: `uniqueName` keeps a name that is not
in use and otherwise numbers it with the least suffix that is free. Its search
has a visible bound, the number of names in use.

Order is what makes two maps equal that were filled in different orders. A hash table lists its
entries in an order of its own, and whatever is computed by going over one would depend on that
order. Nothing in the library does so: names are listed in ascending order or not at all, and
this representation makes that plain.
-/

namespace GraphGrammar

/-- The name of an element or of a rule. Compared by code point and never
normalized. -/
abbrev Name : Type := String

/-- A finite map from names, as the ascending list of its entries. -/
structure NameMap (β : Type) where
  entries : List (Name × β) := []
  /-- The names ascend strictly, so none occurs twice. -/
  ascending : entries.Pairwise (fun a b => a.1 < b.1) := by exact .nil

namespace NameMap

variable {β γ : Type}

/-- The map without entries. -/
def empty : NameMap β := {}

instance : Inhabited (NameMap β) := ⟨empty⟩

/-- The number of entries. -/
def size (m : NameMap β) : Nat := m.entries.length

/-- The value under a name. -/
def find? (m : NameMap β) (name : Name) : Option β := m.entries.lookup name

/-- Whether a name has a value. -/
def contains (m : NameMap β) (name : Name) : Bool := (m.find? name).isSome

/-- The names that have a value, in ascending order. -/
def names (m : NameMap β) : List Name := m.entries.map Prod.fst

/-! ## Insertion -/

/-- Puts an entry into an ascending list of entries, in place of one with the
same name. -/
def insertEntry (name : Name) (value : β) : List (Name × β) → List (Name × β)
  | [] => [(name, value)]
  | (other, old) :: rest =>
    if name < other then (name, value) :: (other, old) :: rest
    else if name = other then (name, value) :: rest
    else (other, old) :: insertEntry name value rest

/-- An insertion brings in nothing but the entry that is inserted. -/
theorem mem_insertEntry {name : Name} {value : β} {entry : Name × β} :
    {entries : List (Name × β)} → entry ∈ insertEntry name value entries →
      entry = (name, value) ∨ entry ∈ entries
  | [], h => by simpa [insertEntry] using h
  | (other, old) :: rest, h => by
    unfold insertEntry at h
    split at h
    · simpa using h
    · split at h
      · rcases List.mem_cons.1 h with h | h
        · exact .inl h
        · exact .inr (List.mem_cons_of_mem _ h)
      · rcases List.mem_cons.1 h with h | h
        · exact .inr (h ▸ List.mem_cons_self)
        · exact (mem_insertEntry h).imp_right (List.mem_cons_of_mem _)

/-- The invariant of the type. The new entry is put before the first greater name, and takes the
place of an entry with the same name. -/
theorem insertEntry_ascending (name : Name) (value : β) :
    {entries : List (Name × β)} → entries.Pairwise (fun a b => a.1 < b.1) →
      (insertEntry name value entries).Pairwise (fun a b => a.1 < b.1)
  | [], _ => by simp [insertEntry]
  | (other, old) :: rest, h => by
    have hrest := List.pairwise_cons.1 h
    unfold insertEntry
    split
    · rename_i hlt
      refine List.pairwise_cons.2 ⟨fun e he => ?_, h⟩
      rcases List.mem_cons.1 he with he | he
      · exact he ▸ hlt
      · exact String.lt_trans hlt (hrest.1 e he)
    · split
      · rename_i heq
        exact List.pairwise_cons.2 ⟨fun e he => heq ▸ hrest.1 e he, hrest.2⟩
      · rename_i hnlt hne
        refine List.pairwise_cons.2 ⟨fun e he => ?_, insertEntry_ascending name value hrest.2⟩
        rcases mem_insertEntry he with he | he
        · subst he
          rcases String.le_total name other with hle | hle
          · exact absurd (String.le_antisymm hle (String.not_lt.1 hnlt)) hne
          · refine String.not_le.1 fun hle' => hne (String.le_antisymm hle' hle)
        · exact hrest.1 e he

/-- Gives a name a value, in place of the one it had. -/
def insert (m : NameMap β) (name : Name) (value : β) : NameMap β where
  entries := insertEntry name value m.entries
  ascending := insertEntry_ascending name value m.ascending

/-- Forgets a name. -/
def erase (m : NameMap β) (name : Name) : NameMap β where
  entries := m.entries.filter (fun e => e.1 != name)
  ascending := m.ascending.filter _

/-- The map of a list of entries; of entries with the same name the last one
counts. -/
def ofList (entries : List (Name × β)) : NameMap β :=
  entries.foldl (fun m e => m.insert e.1 e.2) empty

/-! ## Questions after an operation

A map is known by the answers it gives, so every operation is told by the answers after it. -/

/-- One step of a look-up, as a case distinction that can be rewritten with. -/
theorem lookup_cons_eq_ite (first name : Name) (value : β) (rest : List (Name × β)) :
    ((first, value) :: rest).lookup name
      = if name = first then some value else rest.lookup name := by
  rw [List.lookup_cons]
  by_cases h : name = first
  · simp [h]
  · simp [h, beq_false_of_ne h]

/-- In an ascending list an entry is found, since no earlier entry has its name. -/
theorem lookup_eq_some_of_mem {name : Name} {value : β} :
    {entries : List (Name × β)} → entries.Pairwise (fun a b => a.1 < b.1) →
      (name, value) ∈ entries → entries.lookup name = some value
  | (first, _) :: rest, hp, h => by
    have hrest := List.pairwise_cons.1 hp
    rw [lookup_cons_eq_ite]
    rcases List.mem_cons.1 h with h | h
    · cases h
      exact if_pos rfl
    · rw [if_neg fun heq : name = first => String.lt_irrefl first (heq ▸ hrest.1 _ h)]
      exact lookup_eq_some_of_mem hrest.2 h

theorem mem_of_lookup_eq_some {name : Name} {value : β} :
    {entries : List (Name × β)} → entries.lookup name = some value → (name, value) ∈ entries
  | (first, old) :: rest, h => by
    rw [lookup_cons_eq_ite] at h
    split at h
    · rename_i heq
      cases h
      exact heq ▸ List.mem_cons_self
    · exact List.mem_cons_of_mem _ (mem_of_lookup_eq_some h)

/-- An entry is listed exactly when looking its name up finds it. -/
theorem mem_entries_iff {m : NameMap β} {name : Name} {value : β} :
    (name, value) ∈ m.entries ↔ m.find? name = some value :=
  ⟨lookup_eq_some_of_mem m.ascending, mem_of_lookup_eq_some⟩

/-- The answers of a list after an insertion, be it ascending or not: whatever stands in front of
the new entry has another name, and what stands behind it is hidden by it if it has the same. -/
theorem lookup_insertEntry (name : Name) (value : β) (other : Name) :
    (entries : List (Name × β)) →
      (insertEntry name value entries).lookup other
        = if other = name then some value else entries.lookup other
  | [] => by rw [insertEntry, lookup_cons_eq_ite]
  | (first, old) :: rest => by
    unfold insertEntry
    split
    · rw [lookup_cons_eq_ite]
    · split
      · rename_i heq
        subst heq
        rw [lookup_cons_eq_ite, lookup_cons_eq_ite]
        split <;> rfl
      · rename_i hne
        rw [lookup_cons_eq_ite, lookup_cons_eq_ite, lookup_insertEntry name value other rest]
        by_cases h : other = name
        · rw [if_pos h, if_pos h, if_neg (h ▸ hne : ¬other = first)]
        · rw [if_neg h, if_neg h]

/-- The last value given to a name is the one that is found. -/
theorem find?_insert (m : NameMap β) (name : Name) (value : β) (other : Name) :
    (m.insert name value).find? other = if other = name then some value else m.find? other :=
  lookup_insertEntry name value other m.entries

theorem lookup_filter_ne (name other : Name) :
    (entries : List (Name × β)) → (entries.filter (fun e => e.1 != name)).lookup other
      = if other = name then none else entries.lookup other
  | [] => by simp
  | (first, old) :: rest => by
    rw [lookup_cons_eq_ite]
    by_cases he : first = name
    · rw [List.filter_cons_of_neg (by simp [he]), lookup_filter_ne name other rest]
      split
      · rfl
      · rename_i h
        rw [if_neg (he ▸ h)]
    · rw [List.filter_cons_of_pos (by simp [he]), lookup_cons_eq_ite,
        lookup_filter_ne name other rest]
      by_cases h : other = name
      · rw [if_pos h, if_pos h, if_neg (h ▸ fun heq => he heq.symm : ¬other = first)]
      · rw [if_neg h, if_neg h]

/-- What is erased is not found any more, and nothing else is lost. -/
theorem find?_erase (m : NameMap β) (name other : Name) :
    (m.erase name).find? other = if other = name then none else m.find? other :=
  lookup_filter_ne name other m.entries

@[simp] theorem find?_empty (name : Name) : (empty : NameMap β).find? name = none := rfl

/-- No entry is listed twice, since no name is. -/
theorem nodup_entries (m : NameMap β) : m.entries.Nodup :=
  m.ascending.imp fun {a b} hlt (heq : a = b) => String.lt_irrefl b.1 (heq ▸ hlt)

/-- **A map is what it answers.** -/
theorem ext_find? {m n : NameMap β} (h : ∀ name, m.find? name = n.find? name) : m = n := by
  have hmem : ∀ e : Name × β, e ∈ m.entries ↔ e ∈ n.entries := fun e => by
    rw [mem_entries_iff, mem_entries_iff, h]
  have heq : m.entries = n.entries :=
    ((List.perm_ext_iff_of_nodup m.nodup_entries n.nodup_entries).2 hmem).eq_of_pairwise
      (fun _ _ _ _ hab hba => absurd hba (String.lt_asymm hab)) m.ascending n.ascending
  obtain ⟨me, _⟩ := m
  obtain ⟨ne, _⟩ := n
  cases heq
  rfl

end NameMap

/-! ## Free names -/

/-- A name with a number appended to it. -/
def numbered (base : Name) (number : Nat) : Name := s!"{base}_{number}"

/-- The first free name among `fuel` consecutive numberings, or the one after
them. -/
def firstFree {β : Type} (taken : NameMap β) (base : Name) (number : Nat) : Nat → Name
  | 0 => numbered base number
  | fuel + 1 =>
    if taken.contains (numbered base number) then firstFree taken base (number + 1) fuel
    else numbered base number

/-- The name itself if it is free, and otherwise the name with the least
number, counted from one, that makes it free. As many numbers are tried as
names are taken: the name itself is one of those, so one of the numberings is
free. -/
def uniqueName {β : Type} (taken : NameMap β) (base : Name) : Name :=
  if taken.contains base then firstFree taken base 1 taken.size else base

/-- Names in ascending order, repeats removed. -/
def sortedNames (names : List Name) : List Name :=
  (NameMap.ofList (names.map fun name => (name, ()))).names

end GraphGrammar
