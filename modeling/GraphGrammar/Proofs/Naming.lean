import GraphGrammar.Proofs.Registry

/-!
# Names given in turn

Names are made distinct in one pass. An element keeps its name unless an element before it
bears that name by then, and otherwise gets the first numbering of it that no element before
it bears. This is how a registry is built of a list (`Registry.ofElements`) and how it is
repaired where it stands (`Registry.repair`). What comes of either is said without the pass
(`Registry.NamedInTurn`): every element is where it was and as it was, under a name that
depends on the elements before it alone.

A pass in one direction does not know the names that are still to come. A name that a single
element bears may have been given away when its turn comes, to an element before it that
repeated another name. Nothing else takes a name away (`NamesInTurn.exists_of_ne`).

The number of a name is searched for upwards from one, as far as it takes (`SearchEnds`). There
are more numbers than names in use, so one of them is free within as many tries, and it is the
least that is (`uniqueName_least`).

Elements are numbered through their keys here, since the pass goes by slots: "before" means in a
lower slot, and an empty slot bears no name. A registry that is built of a list is brought into
this form by taking the list for slots (`Registry.listed`), so both passes are instances of one
statement.
-/

namespace GraphGrammar

open Attributed

/-! ## The first free name

The name that is given is described without the search that finds it, so that a bound on the
search need not be mentioned later. -/

/-- The name is the one asked for, if this is not taken, and otherwise its numbering with the
least number that is not taken. What is taken is a proposition about names and not an index, so
that the same notion serves for the names in a map and for the names of the elements before a
key. -/
def IsFirstFree (taken : Name → Prop) (base name : Name) : Prop :=
  (¬ taken base ∧ name = base) ∨
    (taken base ∧ ∃ number, 1 ≤ number ∧ name = numbered base number ∧ ¬ taken name ∧
      ∀ less, 1 ≤ less → less < number → taken (numbered base less))

namespace IsFirstFree

variable {taken : Name → Prop} {base name : Name}

/-- A name is kept if it is free, and not otherwise. -/
theorem eq_iff (h : IsFirstFree taken base name) : name = base ↔ ¬ taken base := by
  obtain ⟨hfree, rfl⟩ | ⟨htaken, number, _, rfl, _, _⟩ := h
  · simp [hfree]
  · simp [htaken, numbered_ne]

/-- There is one first free name. -/
theorem unique {other : Name} (h : IsFirstFree taken base name)
    (h' : IsFirstFree taken base other) :
    name = other := by
  obtain ⟨hfree, rfl⟩ | ⟨htaken, number, hpos, rfl, hnumber, hless⟩ := h
  · exact (h'.eq_iff.2 hfree).symm
  obtain ⟨hfree, -⟩ | ⟨-, number', hpos', rfl, hnumber', hless'⟩ := h'
  · exact absurd htaken hfree
  -- the smaller number would be taken for the other name and free for its own
  rcases Nat.lt_trichotomy number number' with hlt | rfl | hgt
  · exact absurd (hless' number hpos hlt) hnumber
  · rfl
  · exact absurd (hless number' hpos' hgt) hnumber'

end IsFirstFree

/-- The name that is given where names are in use is the first free one. -/
theorem isFirstFree_uniqueName {β : Type} (taken : NameMap β) (base : Name) :
    IsFirstFree (fun name => taken.contains name = true) base (uniqueName taken base) := by
  rcases uniqueName_eq taken base with ⟨hfree, heq⟩ | ⟨htaken, i, -, heq, hfree, hbefore⟩
  · exact .inl ⟨by simp [hfree], heq⟩
  · refine .inr ⟨htaken, 1 + i, Nat.le_add_right .., heq, by simp [heq, hfree],
      fun less hpos hlt => ?_⟩
    obtain ⟨j, rfl⟩ := Nat.le.dest hpos
    exact hbefore j (by omega)

/-- **A search for a free numbering that knows no bound.** From a number on it looks at one
numbering after the other, up to the first one that is free. `SearchEnds taken base number looked
name` says that it looks at so many of them and ends with the name. -/
inductive SearchEnds {β : Type} (taken : NameMap β) (base : Name) : Nat → Nat → Name → Prop where
  | free {number : Nat} (hfree : taken.contains (numbered base number) = false) :
    SearchEnds taken base number 1 (numbered base number)
  | onward {number looked : Nat} {name : Name}
      (htaken : taken.contains (numbered base number) = true)
    (rest : SearchEnds taken base (number + 1) looked name) :
    SearchEnds taken base number (looked + 1) name

namespace SearchEnds

variable {β : Type} {taken : NameMap β} {base name name' : Name} {number looked looked' : Nat}

/-- A search that ends does so in one way. -/
theorem unique (h : SearchEnds taken base number looked name)
    (h' : SearchEnds taken base number looked' name') : looked' = looked ∧ name' = name := by
  induction h generalizing looked' with
  | free hfree =>
    cases h' with
    | free => exact ⟨rfl, rfl⟩
    | onward htaken => simp [hfree] at htaken
  | onward htaken _ ih =>
    cases h' with
    | free hfree => simp [hfree] at htaken
    | onward _ rest =>
      obtain ⟨rfl, rfl⟩ := ih rest
      exact ⟨rfl, rfl⟩

/-- The search ends behind the numberings that are taken. -/
theorem of_first {i : Nat} (htaken : ∀ j < i, taken.contains (numbered base (number + j)) = true)
    (hfree : taken.contains (numbered base (number + i)) = false) :
    SearchEnds taken base number (i + 1) (numbered base (number + i)) := by
  induction i generalizing number with
  | zero => exact .free hfree
  | succ i ih =>
    rw [Nat.add_comm i 1, ← Nat.add_assoc] at hfree ⊢
    refine .onward (htaken 0 (Nat.succ_pos i)) (Nat.add_comm i 1 ▸ ih (fun j hj => ?_) hfree)
    rw [Nat.add_assoc, Nat.add_comm 1 j]
    exact htaken (j + 1) (Nat.succ_lt_succ hj)

end SearchEnds

/-- **The search for a free name ends, with the least one.** The name that is given is the one
asked for if this is free, and otherwise its numbering with the least number that is free. A search
without a bound would come to it as well, and to nothing else, and would look at no more numberings
than there are names in use. -/
theorem uniqueName_least {β : Type} (taken : NameMap β) (base : Name) :
    IsFirstFree (fun name => taken.contains name = true) base (uniqueName taken base) ∧
      (taken.contains base = true → ∃ looked, looked ≤ taken.size ∧
        uniqueName taken base = numbered base looked ∧
        ∀ looked' name, SearchEnds taken base 1 looked' name ↔
          looked' = looked ∧ name = uniqueName taken base) := by
  refine ⟨isFirstFree_uniqueName taken base, fun hbase => ?_⟩
  obtain ⟨hfree, -⟩ | ⟨-, i, hlt, heq, hfree, htaken⟩ := uniqueName_eq taken base
  · simp [hfree] at hbase
  · have hends : SearchEnds taken base 1 (i + 1) (uniqueName taken base) :=
      heq ▸ SearchEnds.of_first htaken hfree
    refine ⟨i + 1, hlt, heq.trans (by rw [Nat.add_comm]), fun looked' name => ?_⟩
    constructor
    · exact hends.unique
    · rintro ⟨rfl, rfl⟩
      exact hends

/-- The third numbering is taken and the second one is not. -/
theorem uniqueName_least_gap :
    let taken : NameMap Unit := .ofList [("a", ()), ("a_1", ()), ("a_3", ()), ("b", ())]
    taken.contains "a" = true ∧ uniqueName taken "a" = "a_2" ∧ SearchEnds taken "a" 1 2 "a_2" := by
  intro taken
  have hbase : taken.contains "a" = true := by decide +kernel
  have hname : uniqueName taken "a" = "a_2" := by decide +kernel
  obtain ⟨looked, -, hnumber, hends⟩ := (uniqueName_least taken "a").2 hbase
  have hlooked : looked = 2 :=
    numbered_injective "a" (hnumber.symm.trans (hname.trans (by decide +kernel)))
  exact ⟨hbase, hname, (hends 2 "a_2").2 ⟨hlooked.symm, hname.symm⟩⟩

/-! ## Names given one after the other

Here are names alone, with no elements and no index. Giving them in turn is a relation between
the names before and the names after, and the former determine the latter. -/

section

variable {κ : Kind}

/-- An element before the key bears the name. -/
def BorneBefore (names : Key κ → Option Name) (key : Key κ) (name : Name) : Prop :=
  ∃ earlier : Key κ, earlier.index < key.index ∧ names earlier = some name

/-- Whether a name is borne before a key depends on nothing but the names before it. The
induction that shows that there is one way to give names in turn needs just this. -/
theorem BorneBefore.congr {names names' : Key κ → Option Name} {key : Key κ}
    (h : ∀ earlier : Key κ, earlier.index < key.index → names earlier = names' earlier) :
    BorneBefore names key = BorneBefore names' key := by
  funext name
  exact propext (exists_congr fun earlier => and_congr_right fun hlt => by rw [h earlier hlt])

/-- **Names given in turn**: each element has the first name that is free of those that the
elements before it have by then. The names after the pass are given by themselves and not by the
names before: whether a name is free is asked of what the elements before bear by then, and this
makes the statement a recursion on keys without any order of evaluation. -/
structure NamesInTurn (before after : Key κ → Option Name) : Prop where
  vacant : ∀ key, before key = none → after key = none
  settles : ∀ key base, before key = some base →
    ∃ name, after key = some name ∧ IsFirstFree (BorneBefore after key) base name

namespace NamesInTurn

variable {before after : Key κ → Option Name} (h : NamesInTurn before after) {key other : Key κ}
  {name : Name}

include h

/-- What becomes of a name, seen from the outcome. -/
theorem exists_base (hkey : after key = some name) :
    ∃ base, before key = some base ∧ IsFirstFree (BorneBefore after key) base name := by
  cases hbase : before key with
  | none => simp [h.vacant key hbase] at hkey
  | some base =>
    obtain ⟨given, hgiven, hfirst⟩ := h.settles key base hbase
    rw [hkey] at hgiven
    cases hgiven
    exact ⟨base, rfl, hfirst⟩

/-- **A name is kept just if no element before bears it by then.** -/
theorem kept_iff (hkey : before key = some name) :
    after key = some name ↔ ¬ BorneBefore after key name := by
  obtain ⟨given, hgiven, hfirst⟩ := h.settles key name hkey
  rw [hgiven, Option.some_inj, hfirst.eq_iff]

/-- Names can be given in turn in one way. -/
theorem unique {after' : Key κ → Option Name} (h' : NamesInTurn before after') :
    after = after' := by
  have hindex : ∀ n, ∀ key : Key κ, key.index = n → after key = after' key := by
    intro n
    induction n using Nat.strongRecOn with
    | ind n ih =>
      rintro key rfl
      have hborne : BorneBefore after key = BorneBefore after' key :=
        BorneBefore.congr fun earlier hlt => ih earlier.index hlt earlier rfl
      cases hbase : before key with
      | none => rw [h.vacant key hbase, h'.vacant key hbase]
      | some base =>
        obtain ⟨name, hname, hfirst⟩ := h.settles key base hbase
        obtain ⟨name', hname', hfirst'⟩ := h'.settles key base hbase
        rw [hname, hname', hfirst.unique (hborne ▸ hfirst')]
  exact funext fun key => hindex key.index key rfl

/-- **Who takes a name away.** An element before bears it afterwards, which either had it
already or repeated another name and was given it as a numbering of that one. -/
theorem exists_of_ne (hkey : before key = some name) (hne : after key ≠ some name) :
    ∃ earlier : Key κ, earlier.index < key.index ∧ after earlier = some name ∧
      (before earlier = some name ∨ ∃ base number, before earlier = some base ∧
        BorneBefore after earlier base ∧ name = numbered base number) := by
  obtain ⟨earlier, hlt, hearlier⟩ := not_not.1 fun hfree => hne ((h.kept_iff hkey).2 hfree)
  refine ⟨earlier, hlt, hearlier, ?_⟩
  obtain ⟨base, hbase, ⟨-, rfl⟩ | ⟨htaken, number, -, heq, -, -⟩⟩ := h.exists_base hearlier
  · exact .inl hbase
  · exact .inr ⟨base, number, hbase, htaken, heq⟩

/-- A name is kept that no element before had, nor has as a numbering. -/
theorem eq_of_first (hkey : before key = some name)
    (hfirst : ∀ earlier : Key κ, earlier.index < key.index → before earlier ≠ some name ∧
      ∀ base number, before earlier = some base → name ≠ numbered base number) :
    after key = some name := by
  by_contra hne
  obtain ⟨earlier, hlt, -, hhad | ⟨base, number, hbase, -, heq⟩⟩ := h.exists_of_ne hkey hne
  · exact (hfirst earlier hlt).1 hhad
  · exact (hfirst earlier hlt).2 base number hbase heq

/-- A name that an element before had is not kept. -/
theorem ne_of_repeated (hkey : before key = some name) (hother : before other = some name)
    (hlt : other.index < key.index) : after key ≠ some name := by
  intro hkept
  refine (h.kept_iff hkey).1 hkept ?_
  by_cases hsame : after other = some name
  · exact ⟨other, hlt, hsame⟩
  · -- the name went to an element before both of them
    obtain ⟨earlier, hearlier, hname, -⟩ := h.exists_of_ne hother hsame
    exact ⟨earlier, hearlier.trans hlt, hname⟩

end NamesInTurn

end

/-! ## The elements of a kind

Whoever gives names to elements in turn leaves them where they are and changes nothing else of
them. -/

namespace Registry

variable {κ : Kind} {α : Type}

/-- The elements of a list in slots of their own, with nothing in the index. -/
def listed (elements : List α) : Registry κ α := ⟨elements.map some, .empty⟩

/-- The place in the list is the key. -/
theorem get?_listed (elements : List α) (key : Key κ) :
    (listed elements).get? key = elements[key.index]? := by
  rw [get?, listed, List.getElem?_map]
  cases elements[key.index]? <;> rfl

variable [Attributed α]

/-- The name of the element under a key. -/
def nameUnder (r : Registry κ α) (key : Key κ) : Option Name := (r.get? key).map nameOf

/-- **Elements named in turn**: every element is where it was, under the first name that is
free of those that the elements before it have by then. -/
structure NamedInTurn (before after : Registry κ α) : Prop where
  length_eq : after.cells.length = before.cells.length
  vacant : ∀ key, before.get? key = none → after.get? key = none
  finds : ∀ key a, before.get? key = some a → ∃ name, after.get? key = some (renamed a name) ∧
    IsFirstFree (BorneBefore after.nameUnder key) (nameOf a) name

namespace NamedInTurn

variable {before after : Registry κ α}

/-- The names of elements that are named in turn are given in turn. What else is known of the
elements, that they keep their places and everything but their names, is left out of sight. -/
theorem names (h : NamedInTurn before after) : NamesInTurn before.nameUnder after.nameUnder where
  vacant key hkey := by
    rw [nameUnder, h.vacant key (Option.map_eq_none_iff.1 hkey)]
    rfl
  settles key base hkey := by
    obtain ⟨a, ha, rfl⟩ := Option.map_eq_some_iff.1 hkey
    obtain ⟨name, hname, hfirst⟩ := h.finds key a ha
    exact ⟨name, by simp [nameUnder, hname], hfirst⟩

/-- What is there afterwards was there before, under some name. -/
theorem exists_of_get? (h : NamedInTurn before after) {key : Key κ} {a : α}
    (ha : after.get? key = some a) : ∃ b name, before.get? key = some b ∧ a = renamed b name := by
  cases hb : before.get? key with
  | none => exact absurd (h.vacant key hb) (by simp [ha])
  | some b =>
    obtain ⟨name, hname, -⟩ := h.finds key b hb
    exact ⟨b, name, rfl, Option.some.inj (ha.symm.trans hname)⟩

/-- Where there are no elements, any index will do. -/
theorem nil (names names' : NameMap (Key κ)) :
    NamedInTurn (⟨[], names⟩ : Registry κ α) ⟨[], names'⟩ :=
  ⟨rfl, fun _ _ => rfl, nofun⟩

/-- One more slot. With the empty registry this is the recursion of the pass: a filled slot gets
a name that is free of those before it, and an empty one gets none. -/
theorem snoc (h : NamedInTurn before after) (names names' : NameMap (Key κ)) {cell cell' : Option α}
    (hnone : cell = none → cell' = none)
    (hsome : ∀ a, cell = some a → ∃ name, cell' = some (renamed a name) ∧
      IsFirstFree (BorneBefore after.nameUnder after.nextKey) (nameOf a) name) :
    NamedInTurn (⟨before.cells ++ [cell], names⟩ : Registry κ α)
      ⟨after.cells ++ [cell'], names'⟩ := by
  have hnext : before.nextKey = after.nextKey := congrArg Key.mk h.length_eq.symm
  -- the names before a slot are not touched by what comes after it
  have hborne : ∀ key : Key κ, key.index ≤ after.cells.length →
      BorneBefore (⟨after.cells ++ [cell'], names'⟩ : Registry κ α).nameUnder key
        = BorneBefore after.nameUnder key := by
    intro key hle
    refine BorneBefore.congr fun earlier hlt => ?_
    rw [nameUnder, get?_snoc, if_neg, nameUnder]
    rintro rfl
    exact Nat.not_lt_of_le hle hlt
  refine ⟨by simp [h.length_eq], fun key hkey => ?_, fun key a ha => ?_⟩
  · rw [get?_snoc, hnext] at hkey
    rw [get?_snoc]
    split at hkey
    · exact (if_pos ‹_›).trans (hnone hkey)
    · exact (if_neg ‹_›).trans (h.vacant key hkey)
  · rw [get?_snoc, hnext] at ha
    rw [get?_snoc]
    split at ha
    · rename_i heq
      obtain ⟨name, hcell, hfirst⟩ := hsome a ha
      exact ⟨name, (if_pos heq).trans hcell, by rwa [heq, hborne after.nextKey (Nat.le_refl _)]⟩
    · rename_i hne
      obtain ⟨name, hname, hfirst⟩ := h.finds key a ha
      have hle := Nat.le_of_lt (lt_of_get?_eq_some hname)
      exact ⟨name, (if_neg hne).trans hname, by rwa [hborne _ hle]⟩

/-- One more empty slot. -/
theorem skip (h : NamedInTurn before after) (names names' : NameMap (Key κ)) :
    NamedInTurn (⟨before.cells ++ [none], names⟩ : Registry κ α) ⟨after.cells ++ [none], names'⟩ :=
  h.snoc names names' (fun _ => rfl) nofun

end NamedInTurn

/-- The index of a registry has the names that a new element comes after. -/
theorem borneBefore_nextKey {r : Registry κ α} (h : Graph.Indexed r) :
    BorneBefore r.nameUnder r.nextKey = fun name => r.names.contains name = true := by
  funext name
  refine propext (Iff.trans ?_ h.contains_iff.symm)
  constructor
  · rintro ⟨key, -, hkey⟩
    obtain ⟨a, ha, hname⟩ := Option.map_eq_some_iff.1 hkey
    exact ⟨a, mem_elements_iff.2 ⟨key, ha⟩, hname⟩
  · rintro ⟨a, ha, rfl⟩
    obtain ⟨key, hkey⟩ := mem_elements_iff.1 ha
    exact ⟨key, lt_of_get?_eq_some hkey, by simp [nameUnder, hkey]⟩

/-- One more element, put in under the first name that is free. -/
theorem NamedInTurn.pushUnique {before after : Registry κ α} (h : NamedInTurn before after)
    (hindexed : Graph.Indexed after) (names : NameMap (Key κ)) (a : α) :
    NamedInTurn (⟨before.cells ++ [some a], names⟩ : Registry κ α) (after.pushUnique a).2 := by
  refine h.snoc names _ nofun fun b hb => ?_
  cases hb
  refine ⟨_, rfl, ?_⟩
  rw [borneBefore_nextKey hindexed]
  exact isFirstFree_uniqueName after.names (nameOf a)

/-! ### Both passes

Building a registry and repairing one are different recursions with the same outcome. -/

/-- **A registry that is built of a list names its elements in turn.** -/
theorem namedInTurn_ofElements (elements : List α) :
    NamedInTurn (listed elements : Registry κ α) (ofElements elements) := by
  have hfold : ∀ (elements : List α) (before after : Registry κ α), NamedInTurn before after →
      Graph.Indexed after → NamedInTurn (⟨before.cells ++ elements.map some, .empty⟩ : Registry κ α)
        (elements.foldl (fun r a => (r.pushUnique a).2) after) := by
    intro elements
    induction elements with
    | nil =>
      intro before after h _
      rw [List.map_nil, List.append_nil]
      exact ⟨h.length_eq, h.vacant, h.finds⟩
    | cons a rest ih =>
      intro before after h hindexed
      have hrest := ih _ _ (h.pushUnique hindexed .empty a) (hindexed.pushUnique a)
      rwa [List.append_assoc] at hrest
  exact hfold elements empty empty (.nil _ _) .empty

/-- An element of it is the one in its place in the list, under some name. -/
theorem exists_of_get?_ofElements {elements : List α} {key : Key κ} {a : α}
    (h : (ofElements elements).get? key = some a) :
    ∃ b name, elements[key.index]? = some b ∧ a = renamed b name := by
  obtain ⟨b, name, hb, heq⟩ := (namedInTurn_ofElements elements).exists_of_get? h
  exact ⟨b, name, (get?_listed elements key).symm.trans hb, heq⟩

/-- **Repairing a registry names its elements in turn.** -/
theorem namedInTurn_repair (r : Registry κ α) : NamedInTurn r r.repair.1 := by
  have hcells : ∀ (cells : List (Option α)) (before after : Registry κ α),
      NamedInTurn before after →
      Graph.Indexed after → NamedInTurn (⟨before.cells ++ cells, r.names⟩ : Registry κ α)
        ⟨after.cells ++ (repairFrom after.cells.length after.names cells).cells,
          (repairFrom after.cells.length after.names cells).names⟩ := by
    intro cells
    induction cells with
    | nil =>
      intro before after h _
      simp only [repairFrom, List.append_nil]
      exact ⟨h.length_eq, h.vacant, h.finds⟩
    | cons cell rest ih =>
      intro before after h hindexed
      cases cell with
      | none =>
        simpa [repairFrom] using ih _ _ (h.skip r.names after.names) hindexed.skip
      | some a =>
        have hrest := ih _ _ (h.pushUnique hindexed r.names a) (hindexed.pushUnique a)
        simpa [repairFrom, Registry.pushUnique, push, nextKey] using hrest
  exact hcells r.cells empty empty (.nil _ _) .empty

/-! ### How many were renamed -/

/-- The number of elements that bear another name in another registry. -/
def renamedIn (before after : Registry κ α) : Nat :=
  before.entries.countP fun entry => after.nameUnder entry.1 != some (nameOf entry.2)

/-- **The elements that are renamed are counted.** The number that the pass counts along the way
is compared with what can be seen of the outcome, slot by slot. -/
theorem renamed_repair (r : Registry κ α) : r.repair.2 = r.renamedIn r.repair.1 := by
  -- the induction is on the slots that are left, and those before them are carried along
  have hcells : ∀ (cells before : List (Option α)) (names : NameMap (Key κ)) (after : Registry κ α),
      after.cells = before ++ (repairFrom before.length names cells).cells →
      (repairFrom before.length names cells).renamed
        = ((cells.zipIdx before.length).filterMap fun slot =>
            slot.1.map fun a => ((⟨slot.2⟩ : Key κ), a)).countP
          fun entry => after.nameUnder entry.1 != some (nameOf entry.2) := by
    intro cells
    induction cells with
    | nil => exact fun _ _ _ _ => rfl
    | cons cell rest ih =>
      intro before names after hafter
      cases cell with
      | none =>
        have hrest := ih (before ++ [none]) names after (by simpa [repairFrom] using hafter)
        simpa [repairFrom] using hrest
      | some a =>
        have hname : after.nameUnder ⟨before.length⟩ = some (uniqueName names (nameOf a)) := by
          simp [nameUnder, get?, hafter, repairFrom]
        have hrest := ih (before ++ [some (renamed a (uniqueName names (nameOf a)))])
          (names.insert (uniqueName names (nameOf a)) ⟨before.length⟩) after
          (by simpa [repairFrom] using hafter)
        rw [List.length_append, List.length_singleton] at hrest
        simp only [List.zipIdx_cons, List.filterMap_cons, Option.map_some, List.countP_cons, hname]
        rw [← hrest]
        by_cases hsame : uniqueName names (nameOf a) = nameOf a
        · simp [repairFrom, hsame]
        · simp [repairFrom, hsame]
  exact hcells r.cells [] .empty r.repair.1 rfl

end Registry

end GraphGrammar
