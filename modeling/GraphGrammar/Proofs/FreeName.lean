import GraphGrammar.NameMap
import Mathlib.Data.List.Perm.Subperm
import Mathlib.Data.List.Range
import Mathlib.Data.List.Nodup
import Mathlib.Data.Nat.Find

/-!
# Numbered names

A name that is in use is numbered until it is free. The search for the number
has a bound, the number of names in use, and the bound is enough: the name
itself is one of those in use, so fewer names than numbers are left to be in
the way.

`uniqueName_free` is the statement that everything else rests on: whatever
name is asked for, the name that is given is free.
-/

namespace GraphGrammar

namespace NameMap

variable {β : Type}

/-- A name is in use if something is found under it. -/
theorem contains_iff {m : NameMap β} {name : Name} :
    m.contains name = true ↔ ∃ value, m.find? name = some value :=
  Option.isSome_iff_exists

theorem contains_eq_false_iff {m : NameMap β} {name : Name} :
    m.contains name = false ↔ m.find? name = none := by
  rw [contains, Option.isSome_eq_false_iff, Option.isNone_iff_eq_none]

/-- The names listed are the names in use. -/
theorem mem_names_iff {m : NameMap β} {name : Name} :
    name ∈ m.names ↔ m.contains name = true := by
  rw [contains_iff, names, List.mem_map]
  constructor
  · rintro ⟨⟨_, value⟩, hmem, rfl⟩
    exact ⟨value, mem_entries_iff.1 hmem⟩
  · rintro ⟨value, h⟩
    exact ⟨(name, value), mem_entries_iff.2 h, rfl⟩

/-- There are as many names as the map counts. The bound of the search is this number. -/
theorem length_names (m : NameMap β) : m.names.length = m.size := List.length_map _

theorem nodup_names (m : NameMap β) : m.names.Nodup :=
  List.pairwise_map.2 (m.ascending.imp fun {a b} hlt (heq : a.1 = b.1) =>
    String.lt_irrefl b.1 (heq ▸ hlt))

end NameMap

/-! ## Numbering

That different numbers make different names is what lets the search for a free one be counted. -/

/-- Two numbers are written differently. -/
theorem repr_injective {m n : Nat} (h : m.repr = n.repr) : m = n := by
  have hdigits : Nat.toDigits 10 m = Nat.toDigits 10 n := by
    rw [← Nat.toList_repr, ← Nat.toList_repr, h]
  rw [← Nat.ofDigitChars_toDigits (b := 10) (n := m) (by decide) (by decide), hdigits,
    Nat.ofDigitChars_toDigits (by decide) (by decide)]

theorem numbered_eq (base : Name) (number : Nat) :
    numbered base number = base ++ ("_" ++ number.repr) := by
  show base ++ "_" ++ number.repr = _
  rw [String.append_assoc]

/-- Different numbers make different names, since a number is read back from its digits. Without
this the search for a free name could run through one name over and over. -/
theorem numbered_injective (base : Name) {m n : Nat} (h : numbered base m = numbered base n) :
    m = n := by
  rw [numbered_eq, numbered_eq] at h
  exact repr_injective ((String.append_right_inj _).1 ((String.append_right_inj _).1 h))

/-- A numbering is longer than the name. -/
theorem numbered_ne (base : Name) (number : Nat) : numbered base number ≠ base := by
  intro h
  have hlength := congrArg String.length h
  rw [numbered_eq, String.length_append, String.length_append] at hlength
  have hbar : "_".length = 1 := rfl
  omega

/-! ## The search for a free number

The search has fuel, and this is the place where it is shown to be enough. -/

variable {β : Type}

/-- Numbers that are all taken are passed over. -/
theorem firstFree_add (taken : NameMap β) (base : Name) :
    ∀ (i number fuel : Nat), (∀ j < i, taken.contains (numbered base (number + j)) = true) →
      firstFree taken base number (i + fuel) = firstFree taken base (number + i) fuel
  | 0, number, fuel, _ => by rw [Nat.zero_add, Nat.add_zero]
  | i + 1, number, fuel, h => by
    rw [show i + 1 + fuel = (i + fuel) + 1 by omega, firstFree,
      if_pos (show taken.contains (numbered base number) = true from h 0 (Nat.succ_pos i)),
      firstFree_add taken base i (number + 1) fuel, show number + 1 + i = number + (i + 1) by omega]
    intro j hj
    have := h (j + 1) (by omega)
    rwa [show number + (j + 1) = number + 1 + j by omega] at this

/-- The search ends at a number that is free and of which all numbers before are
taken, if there is such a number within its bound. -/
theorem firstFree_eq {taken : NameMap β} {base : Name} {i number fuel : Nat} (hi : i < fuel)
    (hbefore : ∀ j < i, taken.contains (numbered base (number + j)) = true)
    (hfree : taken.contains (numbered base (number + i)) = false) :
    firstFree taken base number fuel = numbered base (number + i) := by
  obtain ⟨rest, rfl⟩ : ∃ rest, fuel = i + (rest + 1) := ⟨fuel - i - 1, by omega⟩
  rw [firstFree_add taken base i number (rest + 1) hbefore, firstFree,
    if_neg (by rw [hfree]; exact Bool.false_ne_true)]

/-- **A taken name has a free numbering** among as many as there are names in
use. -/
theorem exists_free_number {taken : NameMap β} {base : Name} (hbase : taken.contains base = true) :
    ∃ i < taken.size, taken.contains (numbered base (1 + i)) = false := by
  by_contra hall
  have htaken : ∀ i < taken.size, taken.contains (numbered base (1 + i)) = true := fun i hi =>
    Bool.of_not_eq_false fun hfree => hall ⟨i, hi, hfree⟩
  -- the name and its numberings are one name more than there are
  let crowd := base :: (List.range taken.size).map fun i => numbered base (1 + i)
  have hnodup : crowd.Nodup := by
    refine List.nodup_cons.2 ⟨fun hmem => ?_, ?_⟩
    · obtain ⟨i, _, heq⟩ := List.mem_map.1 hmem
      exact numbered_ne base (1 + i) heq
    · refine List.Nodup.map (fun i j heq => ?_) List.nodup_range
      have := numbered_injective base heq
      omega
  have hsubset : crowd ⊆ taken.names := by
    intro name hmem
    rw [NameMap.mem_names_iff]
    rcases List.mem_cons.1 hmem with rfl | hmem
    · exact hbase
    · obtain ⟨i, hi, rfl⟩ := List.mem_map.1 hmem
      exact htaken i (List.mem_range.1 hi)
  have hlength := (hnodup.subperm hsubset).length_le
  rw [NameMap.length_names, List.length_cons, List.length_map, List.length_range] at hlength
  omega

/-- The name that is given is the one asked for, if it is free, and otherwise
its numbering with the least number that makes it free. -/
theorem uniqueName_eq (taken : NameMap β) (base : Name) :
    (taken.contains base = false ∧ uniqueName taken base = base) ∨
      (taken.contains base = true ∧ ∃ i < taken.size,
        uniqueName taken base = numbered base (1 + i) ∧
        taken.contains (numbered base (1 + i)) = false ∧
        ∀ j < i, taken.contains (numbered base (1 + j)) = true) := by
  unfold uniqueName
  cases hbase : taken.contains base with
  | false => exact .inl ⟨rfl, if_neg Bool.false_ne_true⟩
  | true =>
    refine .inr ⟨rfl, ?_⟩
    have hex := exists_free_number hbase
    let least := Nat.find hex
    obtain ⟨hlt, hfree⟩ := Nat.find_spec hex
    have hbefore : ∀ j < least, taken.contains (numbered base (1 + j)) = true := fun j hj =>
      Bool.of_not_eq_false fun hfree' => Nat.find_min hex hj ⟨by omega, hfree'⟩
    exact ⟨least, hlt, (if_pos rfl).trans (firstFree_eq hlt hbefore hfree), hfree, hbefore⟩

/-- **The name that is given is free.** -/
theorem uniqueName_free (taken : NameMap β) (base : Name) :
    taken.contains (uniqueName taken base) = false := by
  rcases uniqueName_eq taken base with ⟨hfree, heq⟩ | ⟨_, i, _, heq, hfree, _⟩
  · rw [heq, hfree]
  · rw [heq, hfree]

/-- A free name is kept. -/
theorem uniqueName_of_free {taken : NameMap β} {base : Name} (h : taken.contains base = false) :
    uniqueName taken base = base :=
  if_neg (by rw [h]; exact Bool.false_ne_true)

end GraphGrammar
