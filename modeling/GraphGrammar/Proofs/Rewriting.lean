import GraphGrammar.Proofs.Copy
import Mathlib.Data.List.Forall2
import Mathlib.Data.List.Nodup

/-!
# What a run of edits does to one registry

Applying a rule edits nodes, arcs and hyperarcs in many places, but what
becomes of one kind of elements is simple to say. An element that was there
before has a *fate*: it is gone, or it is changed in some way. And new elements
are appended, under names of their own. `Registry.Rewritten` says this of two
registries, and has one lemma for each sort of edit, so that a whole
application is described by going through its edits once.

The changes that are made to the context are lists of changes, one for each
pair of an element with its counterpart (`changesOf`).

The description leaves out in which order the edits are made. Edits of different elements do not
meet, so it makes no difference, and what is left is a function from keys to fates.
-/

namespace GraphGrammar

open Attributed

namespace Registry

section Modify

variable {κ : Kind} {α : Type}

/-- Changing an element twice is changing it once, by both changes. -/
theorem modify_modify (r : Registry κ α) (key : Key κ) (f g : α → α) :
    (r.modify key f).modify key g = r.modify key (g ∘ f) := by
  unfold modify
  simp [List.modify_modify_eq, Function.comp_def]

/-- To change nothing about an element is to change nothing. -/
theorem modify_id (r : Registry κ α) (key : Key κ) : r.modify key (fun a => a) = r := by
  have hcells : r.cells.modify key.index (·.map fun a => a) = r.cells := by
    refine List.ext_getElem? fun i => ?_
    rw [List.getElem?_modify]
    simp
  unfold modify
  rw [hcells]

/-- A change commutes with a change of every element if it does so element by
element. -/
theorem modify_mapElements (r : Registry κ α) (key : Key κ) {f g g' : α → α}
    (h : ∀ a, g' (f a) = f (g a)) :
    (r.mapElements f).modify key g' = (r.modify key g).mapElements f := by
  have hcells : (r.cells.map (·.map f)).modify key.index (·.map g')
      = (r.cells.modify key.index (·.map g)).map (·.map f) := by
    refine List.ext_getElem? fun i => ?_
    rw [List.getElem?_modify, List.getElem?_map, List.getElem?_map, List.getElem?_modify]
    rcases r.cells[i]? with _ | _ | a
    · rfl
    · dsimp only [Option.map_some, Option.map_eq_map]
      split <;> rfl
    · dsimp only [Option.map_some, Option.map_eq_map]
      split
      · exact congrArg (fun b => some (some b)) (h a)
      · rfl
  unfold modify mapElements
  rw [hcells]

/-- A change that a change of every element makes up for is as good as none. -/
theorem mapElements_modify (r : Registry κ α) (key : Key κ) {f g : α → α}
    (h : ∀ a, f (g a) = f a) : (r.modify key g).mapElements f = r.mapElements f := by
  have hchange : (r.mapElements f).modify key (fun a => a) = (r.modify key g).mapElements f :=
    r.modify_mapElements key fun a => (h a).symm
  rw [← hchange, modify_id]

/-- Only what a change does to the element it is for matters. -/
theorem modify_congr {r : Registry κ α} {key : Key κ} {f g : α → α}
    (h : ∀ a, r.get? key = some a → f a = g a) : r.modify key f = r.modify key g := by
  have hcells : r.cells.modify key.index (·.map f) = r.cells.modify key.index (·.map g) := by
    refine List.ext_getElem? fun i => ?_
    rw [List.getElem?_modify, List.getElem?_modify]
    by_cases hi : key.index = i
    · subst hi
      simp only [reduceIte]
      cases hcell : r.cells[key.index]? with
      | none => rfl
      | some cell => cases cell with
        | none => rfl
        | some a =>
          have ha : r.get? key = some a := by simp [get?, hcell]
          show some (some (f a)) = some (some (g a))
          rw [h a ha]
    · simp only [if_neg hi]
  unfold modify
  rw [hcells]

/-- Makes a list of changes, one after another. Later changes see what the earlier ones did. -/
def modifyAll (r : Registry κ α) (changes : List (Key κ × (α → α))) : Registry κ α :=
  changes.foldl (fun r change => r.modify change.1 change.2) r

/-- The first change comes first. -/
theorem modifyAll_cons (r : Registry κ α) (change : Key κ × (α → α))
    (rest : List (Key κ × (α → α))) :
    r.modifyAll (change :: rest) = (r.modify change.1 change.2).modifyAll rest := rfl

/-- Changes take no slots. -/
@[simp] theorem length_cells_modifyAll (changes : List (Key κ × (α → α))) (r : Registry κ α) :
    (r.modifyAll changes).cells.length = r.cells.length := by
  induction changes generalizing r with
  | nil => rfl
  | cons change rest ih => rw [modifyAll_cons, ih, length_cells_modify]

/-- The change that a list of changes makes to the element of a key. -/
def changeOf (changes : List (Key κ × (α → α))) (key : Key κ) : α → α :=
  (changes.lookup key).getD id

/-- An element for which there is no change is left alone. -/
theorem changeOf_of_notMem {changes : List (Key κ × (α → α))} {key : Key κ}
    (h : ∀ change ∈ changes, change.1 ≠ key) : changeOf changes key = id := by
  have hnone : changes.lookup key = none :=
    List.lookup_eq_none_iff.2 fun change hmem => bne_iff_ne.2 (h change hmem).symm
  rw [changeOf, hnone]
  rfl

/-- A list of changes leaves an element alone or makes one of them to it. -/
theorem changeOf_eq_or (changes : List (Key κ × (α → α))) (key : Key κ) :
    changeOf changes key = id ∨ ∃ change ∈ changes, changeOf changes key = change.2 := by
  unfold changeOf
  cases h : changes.lookup key with
  | none => exact .inl rfl
  | some f => exact .inr ⟨(key, f), mem_of_lookup h, rfl⟩

/-- **Changes of different elements do not meet**: each element is changed by the one change that
is for it. The condition is that no key comes twice. -/
theorem get?_modifyAll {changes : List (Key κ × (α → α))} :
    ∀ (r : Registry κ α) (key : Key κ), (changes.map Prod.fst).Nodup →
      (r.modifyAll changes).get? key = (r.get? key).map (changeOf changes key) := by
  induction changes with
  | nil =>
    intro r key _
    simp [modifyAll, changeOf]
  | cons change rest ih =>
    intro r key hnodup
    obtain ⟨first, f⟩ := change
    rw [List.map_cons, List.nodup_cons] at hnodup
    rw [modifyAll_cons, ih _ key hnodup.2, get?_modify]
    by_cases h : first = key
    · subst h
      have hrest : changeOf rest first = id := changeOf_of_notMem fun change hmem heq =>
        hnodup.1 (List.mem_map.2 ⟨change, hmem, heq⟩)
      rw [if_pos rfl, hrest, Option.map_map]
      simp [changeOf]
    · rw [if_neg h]
      simp [changeOf, List.lookup_cons, beq_false_of_ne (Ne.symm h)]

end Modify

/-! ## Changes for pairs of elements

The context is a list of pairs, and a pair gives rise to one change of the image of its element
of L. As different elements have different images, no two changes are of one element. -/

section Changes

variable {κ : Kind} {α : Type} {pairs : List (Key κ × α × α)} {image? : Key κ → Option (Key κ)}
  {f : Key κ → α → α → α → α}

/-- The changes of images for pairs of an element with its counterpart. -/
def changesOf (pairs : List (Key κ × α × α)) (image? : Key κ → Option (Key κ))
    (f : Key κ → α → α → α → α) : List (Key κ × (α → α)) :=
  pairs.filterMap fun (key, before, after) =>
    (image? key).map fun image => (image, f key before after)

/-- A change is made for a pair whose element of L has an image. -/
theorem mem_changesOf {change : Key κ × (α → α)} :
    change ∈ changesOf pairs image? f ↔ ∃ key before after, (key, before, after) ∈ pairs ∧
      image? key = some change.1 ∧ f key before after = change.2 := by
  unfold changesOf
  rw [List.mem_filterMap]
  constructor
  · rintro ⟨⟨key, before, after⟩, hmem, heq⟩
    obtain ⟨image, himage, rfl⟩ := Option.map_eq_some_iff.1 heq
    exact ⟨key, before, after, hmem, himage, rfl⟩
  · rintro ⟨key, before, after, hmem, himage, hf⟩
    refine ⟨(key, before, after), hmem, Option.map_eq_some_iff.2 ⟨change.1, himage, ?_⟩⟩
    exact Prod.ext rfl hf

/-- Different elements have different images, so no image is changed twice. -/
theorem nodup_changesOf (hnodup : (pairs.map Prod.fst).Nodup)
    (hinj : ∀ {key other image}, image? key = some image → image? other = some image →
      key = other) : ((changesOf pairs image? f).map Prod.fst).Nodup := by
  have himages : (changesOf pairs image? f).map Prod.fst
      = (pairs.map Prod.fst).filterMap image? := by
    unfold changesOf
    rw [List.map_filterMap, List.filterMap_map]
    refine List.filterMap_congr fun pair _ => ?_
    simp [Function.comp_def]
  rw [himages]
  exact hnodup.filterMap fun key other image hkey hother => hinj hkey hother

/-- **The image of an element is changed as the pair of that element says.** -/
theorem changeOf_image (hnodup : (pairs.map Prod.fst).Nodup)
    (hinj : ∀ {key other image}, image? key = some image → image? other = some image →
      key = other) {key image : Key κ} {before after : α} (hmem : (key, before, after) ∈ pairs)
    (himage : image? key = some image) :
    changeOf (changesOf pairs image? f) image = f key before after := by
  have hchange : (image, f key before after) ∈ changesOf pairs image? f :=
    mem_changesOf.2 ⟨key, before, after, hmem, himage, rfl⟩
  rw [changeOf, lookup_of_mem (nodup_changesOf hnodup hinj) hchange]
  rfl

/-- What is no image is not changed. -/
theorem changeOf_other {image : Key κ}
    (h : ∀ pair ∈ pairs, image? pair.1 ≠ some image) :
    changeOf (changesOf pairs image? f) image = id := by
  refine changeOf_of_notMem fun change hmem heq => ?_
  obtain ⟨key, before, after, hpair, himage, -⟩ := mem_changesOf.1 hmem
  exact h _ hpair (heq ▸ himage)

end Changes

/-! ## Runs of additions

The keys of what is added can be told beforehand: they are the next ones, in order. Names cannot,
since they depend on which names are free. -/

section PushAll

variable {κ : Kind} {α : Type}

/-- The keys that the next elements of a registry get. -/
def nextKeys (r : Registry κ α) (count : Nat) : List (Key κ) :=
  (List.range' r.cells.length count).map Key.mk

/-- The `i`-th key is `i` slots behind the last one in use. -/
theorem getElem?_nextKeys (r : Registry κ α) {count i : Nat} (h : i < count) :
    (r.nextKeys count)[i]? = some ⟨r.cells.length + i⟩ := by
  simp [nextKeys, h]

/-- No key is given twice. -/
theorem nodup_nextKeys (r : Registry κ α) (count : Nat) : (r.nextKeys count).Nodup :=
  (List.nodup_range').map fun _ _ => congrArg Key.index

/-- The next keys are those right behind the slots of the registry. -/
theorem mem_nextKeys {r : Registry κ α} {key : Key κ} {count : Nat} :
    key ∈ r.nextKeys count ↔
      r.cells.length ≤ key.index ∧ key.index < r.cells.length + count := by
  unfold nextKeys
  rw [List.mem_map]
  constructor
  · rintro ⟨i, hi, rfl⟩
    exact List.mem_range'_1.1 hi
  · intro h
    exact ⟨key.index, List.mem_range'_1.2 h, rfl⟩

/-- The keys of what is there are not given again. -/
theorem notMem_nextKeys {r : Registry κ α} {key : Key κ} (h : key.index < r.cells.length)
    (count : Nat) : key ∉ r.nextKeys count :=
  fun hmem => absurd h (Nat.not_lt.2 (mem_nextKeys.1 hmem).1)

/-- There are as many keys as asked for. -/
theorem length_nextKeys (r : Registry κ α) (count : Nat) : (r.nextKeys count).length = count := by
  simp [nextKeys]

/-- The next keys depend on the number of slots alone. -/
theorem nextKeys_congr {r s : Registry κ α} (h : r.cells.length = s.cells.length) (count : Nat) :
    r.nextKeys count = s.nextKeys count := by
  unfold nextKeys
  rw [h]

variable [Attributed α]

/-- Puts the elements of a list in, one after another, each under a free
name. -/
def pushAll (r : Registry κ α) (elements : List α) : Registry κ α :=
  elements.foldl (fun r a => (r.pushUnique a).2) r

/-- The first element is put in first. -/
theorem pushAll_cons (r : Registry κ α) (a : α) (rest : List α) :
    r.pushAll (a :: rest) = (r.pushUnique a).2.pushAll rest := rfl

/-- The first key is the next one, and the others are next after that. -/
theorem nextKeys_succ (r : Registry κ α) (a : α) (count : Nat) :
    r.nextKeys (count + 1) = r.nextKey :: (r.pushUnique a).2.nextKeys count := by
  unfold nextKeys
  rw [List.range'_succ, List.map_cons, length_cells_pushUnique]
  rfl

end PushAll

/-! ## Fates and additions

`Rewritten` is kept by a change, by a removal and by an addition. So it is the invariant of a
whole application, one registry at a time. -/

section Rewritten

variable {κ : Kind} {α : Type} [Attributed α] {r s after : Registry κ α}
  {fate : Key κ → α → Option α} {added : List α}

/-- **What a run of edits did to a registry**: each element met its fate, and elements were
appended, under whatever names were free. The fate may look at the key and the element, and not
at anything else in the registry. -/
structure Rewritten (r after : Registry κ α) (fate : Key κ → α → Option α) (added : List α) :
    Prop where
  length : after.cells.length = r.cells.length + added.length
  old : ∀ key, key.index < r.cells.length → after.get? key = (r.get? key).bind (fate key)
  new : ∀ i a, added[i]? = some a →
    ∃ name, after.get? ⟨r.cells.length + i⟩ = some (renamed a name)

namespace Rewritten

/-- A registry with as many slots is rewritten if each element met its fate there. -/
theorem of_get? (hlength : after.cells.length = r.cells.length)
    (h : ∀ key, after.get? key = (r.get? key).bind (fate key)) : Rewritten r after fate [] :=
  ⟨hlength, fun key _ => h key, nofun⟩

/-- Fates that agree are as good. -/
theorem congr {fate' : Key κ → α → Option α} (h : Rewritten r after fate added)
    (heq : ∀ key a, fate key a = fate' key a) : Rewritten r after fate' added :=
  (funext₂ heq : fate = fate') ▸ h

/-- Nothing is beyond what was added. -/
theorem get?_of_le (h : Rewritten r after fate added) {key : Key κ}
    (hle : r.cells.length + added.length ≤ key.index) : after.get? key = none :=
  get?_eq_none_of_le (h.length ▸ hle)

/-- **The keys of what stayed are followed by the keys of what came.** So the order in which
elements are listed survives an application. -/
theorem keys (h : Rewritten r after fate added) {stays : Key κ → Bool}
    (hstays : ∀ key a, (fate key a).isSome = stays key) :
    after.keys = r.keys.filter stays ++ r.nextKeys added.length := by
  refine keys_eq_of_mem_iff ?_ fun key => ?_
  · refine List.pairwise_append.2 ⟨r.pairwise_keys.filter _, ?_, fun old hold new hnew => ?_⟩
    · exact List.pairwise_map.2 List.pairwise_lt_range'
    · exact Nat.lt_of_lt_of_le (lt_of_contains (mem_keys_iff.1 (List.mem_filter.1 hold).1))
        (mem_nextKeys.1 hnew).1
  rw [List.mem_append, List.mem_filter, mem_keys_iff, mem_nextKeys]
  rcases Nat.lt_or_ge key.index r.cells.length with hlt | hge
  · have hold : after.contains key = true ↔ r.contains key = true ∧ stays key = true := by
      unfold contains
      rw [h.old key hlt]
      cases r.get? key with
      | none => simp
      | some a => simp [hstays key a]
    rw [hold, or_iff_left fun hnew => absurd hlt (Nat.not_lt.2 hnew.1)]
  · have hdead : ¬ r.contains key = true := fun hkey =>
      absurd (lt_of_contains hkey) (Nat.not_lt.2 hge)
    rw [or_iff_right fun hold => hdead hold.1]
    constructor
    · rintro ⟨-, hlt⟩
      obtain ⟨name, hname⟩ := h.new (key.index - r.cells.length)
        added[key.index - r.cells.length] (List.getElem?_eq_getElem (by omega))
      rw [Nat.add_sub_cancel' hge] at hname
      exact contains_iff.2 ⟨_, hname⟩
    · intro hkey
      exact ⟨hge, h.length ▸ lt_of_contains hkey⟩

/-- The changes that are made to images change the fates of these. -/
theorem modifyAll (h : Rewritten r s fate added) {changes : List (Key κ × (α → α))}
    (hnodup : (changes.map Prod.fst).Nodup)
    (hold : ∀ change ∈ changes, change.1.index < r.cells.length) :
    Rewritten r (s.modifyAll changes)
      (fun key a => (fate key a).map (changeOf changes key)) added := by
  constructor
  · rw [length_cells_modifyAll]
    exact h.length
  · intro key hlt
    rw [get?_modifyAll s key hnodup, h.old key hlt, Option.map_bind]
    rfl
  · intro i a hi
    obtain ⟨name, hname⟩ := h.new i a hi
    have hother : changeOf changes (⟨r.cells.length + i⟩ : Key κ) = id := by
      refine changeOf_of_notMem fun change hmem heq => ?_
      have hlt := hold change hmem
      rw [heq] at hlt
      exact absurd hlt (Nat.not_lt.2 (Nat.le_add_right _ _))
    exact ⟨name, by rw [get?_modifyAll s _ hnodup, hname, hother]; rfl⟩

/-- An element that is appended is one of those added. Its key is behind those of the elements
that were added before, as no slot is ever given up. -/
theorem pushUnique (h : Rewritten r s fate added) (a : α) :
    Rewritten r (s.pushUnique a).2 fate (added ++ [a]) := by
  -- the next key is the one behind all that was added so far
  have hnext : s.nextKey = ⟨r.cells.length + added.length⟩ := congrArg Key.mk h.length
  constructor
  · rw [length_cells_pushUnique, h.length, List.length_append]
    rfl
  · intro key hlt
    have hne : key ≠ s.nextKey := by
      intro heq
      rw [heq, hnext] at hlt
      exact absurd hlt (Nat.not_lt.2 (Nat.le_add_right _ _))
    rw [get?_pushUnique, if_neg hne, h.old key hlt]
  · intro i b hi
    rcases Nat.lt_or_ge i added.length with hlt | hge
    · rw [List.getElem?_append_left hlt] at hi
      have hne : (⟨r.cells.length + i⟩ : Key κ) ≠ s.nextKey := by
        rw [hnext]
        intro heq
        have hindex : r.cells.length + i = r.cells.length + added.length :=
          congrArg Key.index heq
        omega
      rw [get?_pushUnique, if_neg hne]
      exact h.new i b hi
    · rw [List.getElem?_append_right hge] at hi
      have hlast : i = added.length := by
        have hlt := (List.getElem?_eq_some_iff.1 hi).1
        rw [List.length_singleton] at hlt
        omega
      rw [hlast, Nat.sub_self] at hi
      cases hi
      exact ⟨uniqueName s.names (nameOf a), by rw [get?_pushUnique, if_pos (hlast ▸ hnext.symm)]⟩

/-- Elements that are appended are among those added. -/
theorem pushAll (elements : List α) :
    ∀ {s : Registry κ α} {added : List α}, Rewritten r s fate added →
      Rewritten r (s.pushAll elements) fate (added ++ elements) := by
  induction elements with
  | nil =>
    intro s added h
    rwa [List.append_nil]
  | cons a rest ih =>
    intro s added h
    rw [pushAll_cons, List.append_cons]
    exact ih (h.pushUnique a)

end Rewritten

/-- Additions leave what was there as it was. -/
theorem rewritten_pushAll (r : Registry κ α) (elements : List α) :
    Rewritten r (r.pushAll elements) (fun _ a => some a) elements :=
  (Rewritten.of_get? rfl fun key => (Option.bind_fun_some (r.get? key)).symm).pushAll elements

/-- What is appended is found under the next keys, in order. -/
theorem forall₂_pushAll (r : Registry κ α) (elements : List α) :
    List.Forall₂ (fun key a => ∃ name, (r.pushAll elements).get? key = some (renamed a name))
      (r.nextKeys elements.length) elements := by
  refine List.forall₂_iff_get.2 ⟨r.length_nextKeys _, fun i hi hi' => ?_⟩
  have hkey := r.getElem?_nextKeys hi'
  rw [List.getElem?_eq_getElem hi] at hkey
  rw [List.get_eq_getElem, List.get_eq_getElem, Option.some.inj hkey]
  exact (rewritten_pushAll r elements).new i _ (List.getElem?_eq_getElem hi')

/-- What is appended is listed at the end. -/
theorem keys_pushAll (r : Registry κ α) (elements : List α) :
    (r.pushAll elements).keys = r.keys ++ r.nextKeys elements.length := by
  have hkeys : _ = r.keys.filter (fun _ => true) ++ _ :=
    (rewritten_pushAll r elements).keys fun _ _ => rfl
  rwa [List.filter_true] at hkeys

end Rewritten

end Registry

end GraphGrammar
