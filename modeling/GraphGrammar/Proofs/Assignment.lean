import GraphGrammar.Proofs.Registry
import GraphGrammar.Recognition.Fit
import Mathlib.Data.List.Nodup

/-!
# Assignments, one element at a time

An assignment has three lists of places. `Assignment.image?` looks at them as
one map from pattern elements to slot numbers of the host, so that giving one
more element an image (`Assignment.place`) is one operation with one law
(`Assignment.image?_place`), and that one assignment is part of another is one
order (`Assignment.PartOf`).

What is said of nodes, arcs and hyperarcs separately elsewhere (`Assignment.node?`,
`Assignment.nodeImages` and so on) is translated by the lemmas that follow the definition of
`Assignment.image?`. A proof about the search stays on the side of `image?`, where an element is
an element; a proof about a rule or an application stays on the other.
-/

namespace GraphGrammar

/-! ## Lists of places

A place is an optional value, so a list of places has two ways not to have a value at an index.
They are not told apart here: what counts is the value that `Option.join` finds. -/

section Places

variable {β : Type}

/-- After a place is filled, it holds the value, and the other places hold what they held. -/
theorem join_getElem?_set {places : List (Option β)} {i j : Nat} (hi : i < places.length)
    (v : Option β) :
    ((places.set i v)[j]?).join = if i = j then v else (places[j]?).join := by
  rw [List.getElem?_set]
  by_cases h : i = j
  · subst h
    rw [if_pos rfl, if_pos rfl, if_pos hi]
    rfl
  · rw [if_neg h, if_neg h]

/-- The values of a list of places are those that some place holds. -/
theorem mem_filterMap_id {places : List (Option β)} {v : β} :
    v ∈ places.filterMap id ↔ ∃ i : Nat, (places[i]?).join = some v := by
  rw [List.mem_filterMap]
  constructor
  · rintro ⟨place, hmem, hplace⟩
    obtain ⟨i, hi⟩ := List.mem_iff_getElem?.1 hmem
    refine ⟨i, ?_⟩
    rw [hi]
    exact hplace
  · rintro ⟨i, hi⟩
    cases hplace : places[i]? with
    | none =>
      rw [hplace] at hi
      exact nomatch hi
    | some place =>
      rw [hplace] at hi
      exact ⟨place, List.mem_of_getElem? hplace, hi⟩

/-- Places that are filled hold different values exactly when no value is listed twice. It is
proved by recursion on the places, where those that are empty change nothing but the count. -/
theorem nodup_filterMap_id :
    ∀ {places : List (Option β)}, (places.filterMap id).Nodup ↔
      ∀ (i j : Nat) (v : β),
        (places[i]?).join = some v → (places[j]?).join = some v → i = j
  | [] => ⟨fun _ _ _ _ => nofun, fun _ => List.nodup_nil⟩
  -- an empty place only shifts the others; a filled one must differ from all of them
  | none :: rest => by
    rw [List.filterMap_cons_none rfl, nodup_filterMap_id]
    constructor
    · intro h i j v hi hj
      cases i with
      | zero => exact nomatch hi
      | succ i => cases j with
        | zero => exact nomatch hj
        | succ j => exact congrArg Nat.succ (h i j v hi hj)
    · intro h i j v hi hj
      exact Nat.succ.inj (h (i + 1) (j + 1) v hi hj)
  | some first :: rest => by
    have hcons : (some first :: rest).filterMap id = first :: rest.filterMap id := rfl
    rw [hcons, List.nodup_cons, nodup_filterMap_id, mem_filterMap_id]
    constructor
    · rintro ⟨hnew, h⟩ i j v hi hj
      cases i with
      | zero => cases j with
        | zero => rfl
        | succ j =>
          cases hi
          exact absurd ⟨j, hj⟩ hnew
      | succ i => cases j with
        | zero =>
          cases hj
          exact absurd ⟨i, hi⟩ hnew
        | succ j => exact congrArg Nat.succ (h i j v hi hj)
    · intro h
      refine ⟨?_, fun i j v hi hj => Nat.succ.inj (h (i + 1) (j + 1) v hi hj)⟩
      rintro ⟨i, hi⟩
      exact nomatch h (i + 1) 0 first hi rfl

/-- Lists of places of one length are told apart by what they hold, a place without a value being
the same as none. -/
theorem places_ext {places other : List (Option β)} (hlength : places.length = other.length)
    (h : ∀ i : Nat, (places[i]?).join = (other[i]?).join) : places = other := by
  refine List.ext_getElem hlength fun i hi hi' => ?_
  have hplace := h i
  rw [List.getElem?_eq_getElem hi, List.getElem?_eq_getElem hi'] at hplace
  exact hplace

end Places

/-! ## Pattern elements

Three families of facts carry what is said of elements of any kind over to the three kinds. They
are about images (`image?_node` and so on), about distinct images (`Distinct.node_inj`) and about
one assignment that is a part of another (`PartOf.node`). -/

/-- The kind of an element. -/
def PatternElement.kind : PatternElement → Kind
  | .node _ => .node
  | .arc _ => .arc
  | .hyperarc _ => .hyperarc

/-- Whether L has an element. -/
def GrammarRule.hasElement (rule : GrammarRule) : PatternElement → Bool
  | .node key => rule.l.nodes.contains key
  | .arc key => rule.l.arcs.contains key
  | .hyperarc key => rule.l.hyperarcs.contains key

/-- Whether an element of L must not be there. -/
def GrammarRule.isNegative (rule : GrammarRule) : PatternElement → Bool
  | .node key => rule.isNegativeNode key
  | .arc key => rule.isNegativeArc key
  | .hyperarc key => rule.isNegativeHyperArc key

/-- The elements that are assigned once a phase is through: the positive ones,
and then all. -/
def Phase.covers (phase : Phase) (negative : Bool) : Bool :=
  match phase with
  | .positive => !negative
  | .negative => true

/-- The elements that are assigned in a phase: the positive ones, and then the
negative ones. -/
def Phase.assigns (phase : Phase) (negative : Bool) : Bool :=
  match phase with
  | .positive => !negative
  | .negative => negative

namespace Assignment

variable {a b c : Assignment}

/-- The number of the slot of an element's image. -/
def image? (a : Assignment) : PatternElement → Option Nat
  | .node key => (a.node? key).map Key.index
  | .arc key => (a.arc? key).map Key.index
  | .hyperarc key => (a.hyperarc? key).map Key.index

/-- Gives an element an image. -/
def place (a : Assignment) (e : PatternElement) (slot : Nat) : Assignment :=
  match e with
  | .node key => { a with nodes := a.nodes.set key.index (some ⟨slot⟩) }
  | .arc key => { a with arcs := a.arcs.set key.index (some ⟨slot⟩) }
  | .hyperarc key => { a with hyperarcs := a.hyperarcs.set key.index (some ⟨slot⟩) }

/-- An assignment has a place for each element of L. Placing an element beyond the end of its
list would do nothing, and this rules that out. -/
structure Shaped (l : Graph) (a : Assignment) : Prop where
  nodes : a.nodes.length = l.nodes.cells.length
  arcs : a.arcs.length = l.arcs.cells.length
  hyperarcs : a.hyperarcs.length = l.hyperarcs.cells.length

/-- No two elements of a kind have the same image. Elements of different kinds may well have the
same slot number for an image. -/
structure Distinct (a : Assignment) : Prop where
  nodes : a.nodeImages.Nodup
  arcs : a.arcImages.Nodup
  hyperarcs : a.hyperarcImages.Nodup

/-- The elements an assignment assigns have the same images in another one. The search only ever
adds images, so an assignment is a part of each one that is reached from it. -/
def PartOf (a b : Assignment) : Prop := ∀ e slot, a.image? e = some slot → b.image? e = some slot

/-- A key of a known kind is its slot number. -/
theorem map_index_eq_some {κ : Kind} {o : Option (Key κ)} {slot : Nat} :
    o.map Key.index = some slot ↔ o = some ⟨slot⟩ := by
  cases o with
  | none => exact ⟨nofun, nofun⟩
  | some key => exact ⟨fun h => by cases h; rfl, fun h => by cases h; rfl⟩

/-- The image of a node, as a slot and as a key. -/
theorem image?_node {key image : NodeKey} :
    a.image? (.node key) = some image.index ↔ a.node? key = some image := map_index_eq_some

/-- The image of an arc, as a slot and as a key. -/
theorem image?_arc {key image : ArcKey} :
    a.image? (.arc key) = some image.index ↔ a.arc? key = some image := map_index_eq_some

/-- The image of a hyperarc, as a slot and as a key. -/
theorem image?_hyperarc {key image : HyperArcKey} :
    a.image? (.hyperarc key) = some image.index ↔ a.hyperarc? key = some image :=
  map_index_eq_some

/-- The nodes that are images are the images of the nodes. -/
theorem mem_nodeImages {image : NodeKey} : image ∈ a.nodeImages ↔ ∃ key, a.node? key = some image :=
  mem_filterMap_id.trans ⟨fun ⟨i, h⟩ => ⟨⟨i⟩, h⟩, fun ⟨key, h⟩ => ⟨key.index, h⟩⟩

/-- The arcs that are images are the images of the arcs. -/
theorem mem_arcImages {image : ArcKey} : image ∈ a.arcImages ↔ ∃ key, a.arc? key = some image :=
  mem_filterMap_id.trans ⟨fun ⟨i, h⟩ => ⟨⟨i⟩, h⟩, fun ⟨key, h⟩ => ⟨key.index, h⟩⟩

/-- The hyperarcs that are images are the images of the hyperarcs. -/
theorem mem_hyperarcImages {image : HyperArcKey} :
    image ∈ a.hyperarcImages ↔ ∃ key, a.hyperarc? key = some image :=
  mem_filterMap_id.trans ⟨fun ⟨i, h⟩ => ⟨⟨i⟩, h⟩, fun ⟨key, h⟩ => ⟨key.index, h⟩⟩

/-- Distinct images of nodes, used as injectivity: the form in which most proofs about an
application need it. -/
theorem Distinct.node_inj (h : a.Distinct) {key other image : NodeKey}
    (hkey : a.node? key = some image) (hother : a.node? other = some image) : key = other :=
  congrArg Key.mk (nodup_filterMap_id.1 h.nodes _ _ _ hkey hother)

/-- Arcs with the same image are the same. -/
theorem Distinct.arc_inj (h : a.Distinct) {key other image : ArcKey}
    (hkey : a.arc? key = some image) (hother : a.arc? other = some image) : key = other :=
  congrArg Key.mk (nodup_filterMap_id.1 h.arcs _ _ _ hkey hother)

/-- Hyperarcs with the same image are the same. -/
theorem Distinct.hyperarc_inj (h : a.Distinct) {key other image : HyperArcKey}
    (hkey : a.hyperarc? key = some image) (hother : a.hyperarc? other = some image) :
    key = other :=
  congrArg Key.mk (nodup_filterMap_id.1 h.hyperarcs _ _ _ hkey hother)

/-- **Distinct images, said once for all kinds.** The three kinds have slots of their own, so
elements of different kinds may well be in slots of one number. -/
theorem distinct_iff :
    a.Distinct ↔ ∀ e other slot, e.kind = other.kind → a.image? e = some slot →
      a.image? other = some slot → e = other := by
  constructor
  · intro h e other slot hkind he hother
    cases e with
    | node key => cases other with
      | node other =>
        exact congrArg _ (h.node_inj (map_index_eq_some.1 he) (map_index_eq_some.1 hother))
      | arc _ => exact nomatch hkind
      | hyperarc _ => exact nomatch hkind
    | arc key => cases other with
      | node _ => exact nomatch hkind
      | arc other =>
        exact congrArg _ (h.arc_inj (map_index_eq_some.1 he) (map_index_eq_some.1 hother))
      | hyperarc _ => exact nomatch hkind
    | hyperarc key => cases other with
      | node _ => exact nomatch hkind
      | arc _ => exact nomatch hkind
      | hyperarc other =>
        exact congrArg _ (h.hyperarc_inj (map_index_eq_some.1 he) (map_index_eq_some.1 hother))
  · intro h
    constructor
    · refine nodup_filterMap_id.2 fun i j v hi hj => ?_
      exact congrArg Key.index (PatternElement.node.inj
        (h (.node ⟨i⟩) (.node ⟨j⟩) v.index rfl (map_index_eq_some.2 hi) (map_index_eq_some.2 hj)))
    · refine nodup_filterMap_id.2 fun i j v hi hj => ?_
      exact congrArg Key.index (PatternElement.arc.inj
        (h (.arc ⟨i⟩) (.arc ⟨j⟩) v.index rfl (map_index_eq_some.2 hi) (map_index_eq_some.2 hj)))
    · refine nodup_filterMap_id.2 fun i j v hi hj => ?_
      exact congrArg Key.index (PatternElement.hyperarc.inj
        (h (.hyperarc ⟨i⟩) (.hyperarc ⟨j⟩) v.index rfl (map_index_eq_some.2 hi)
          (map_index_eq_some.2 hj)))

/-- A part of an assignment agrees with it on the nodes it assigns. -/
theorem PartOf.node (h : a.PartOf b) {key image : NodeKey} (ha : a.node? key = some image) :
    b.node? key = some image := image?_node.1 (h _ _ (image?_node.2 ha))

/-- A part of an assignment agrees with it on the arcs it assigns. -/
theorem PartOf.arc (h : a.PartOf b) {key image : ArcKey} (ha : a.arc? key = some image) :
    b.arc? key = some image := image?_arc.1 (h _ _ (image?_arc.2 ha))

/-- A part of an assignment agrees with it on the hyperarcs it assigns. -/
theorem PartOf.hyperarc (h : a.PartOf b) {key image : HyperArcKey}
    (ha : a.hyperarc? key = some image) : b.hyperarc? key = some image :=
  image?_hyperarc.1 (h _ _ (image?_hyperarc.2 ha))

/-- A slot is the image of no element of the kind of an element. -/
def Unused (a : Assignment) (e : PatternElement) (slot : Nat) : Prop :=
  ∀ other, other.kind = e.kind → a.image? other ≠ some slot

/-- A slot is unused for a node if the node there is no image. A slot number alone is not enough
to say so: the same number may be an image of an arc. -/
theorem unused_node {key image : NodeKey} :
    a.Unused (.node key) image.index ↔ image ∉ a.nodeImages := by
  rw [mem_nodeImages]
  constructor
  · exact fun h ⟨other, hother⟩ => h (.node other) rfl (image?_node.2 hother)
  · intro h other hkind hother
    cases other with
    | node other => exact h ⟨other, image?_node.1 hother⟩
    | arc _ => exact nomatch hkind
    | hyperarc _ => exact nomatch hkind

/-- A slot is unused for an arc if the arc there is no image. -/
theorem unused_arc {key image : ArcKey} :
    a.Unused (.arc key) image.index ↔ image ∉ a.arcImages := by
  rw [mem_arcImages]
  constructor
  · exact fun h ⟨other, hother⟩ => h (.arc other) rfl (image?_arc.2 hother)
  · intro h other hkind hother
    cases other with
    | node _ => exact nomatch hkind
    | arc other => exact h ⟨other, image?_arc.1 hother⟩
    | hyperarc _ => exact nomatch hkind

/-- A slot is unused for a hyperarc if the hyperarc there is no image. -/
theorem unused_hyperarc {key image : HyperArcKey} :
    a.Unused (.hyperarc key) image.index ↔ image ∉ a.hyperarcImages := by
  rw [mem_hyperarcImages]
  constructor
  · exact fun h ⟨other, hother⟩ => h (.hyperarc other) rfl (image?_hyperarc.2 hother)
  · intro h other hkind hother
    cases other with
    | node _ => exact nomatch hkind
    | arc _ => exact nomatch hkind
    | hyperarc other => exact h ⟨other, image?_hyperarc.1 hother⟩

/-- An assignment is a part of itself; the search ends with this. -/
theorem PartOf.refl (a : Assignment) : a.PartOf a := fun _ _ h => h

/-- Parts of parts are parts. An induction along a plan adds one element after another in this
way. -/
theorem PartOf.trans (h : a.PartOf b) (h' : b.PartOf c) : a.PartOf c :=
  fun e slot he => h' e slot (h e slot he)

/-- Assignments of one shape with the same images are the same. An assignment is thus determined
by `image?`, which is what the search compares. -/
theorem ext_image? {l : Graph} (ha : a.Shaped l) (hb : b.Shaped l)
    (h : ∀ e, a.image? e = b.image? e) : a = b := by
  have hmap : ∀ {κ : Kind} {o o' : Option (Key κ)}, o.map Key.index = o'.map Key.index → o = o' :=
    fun {κ o o'} heq => Option.ext fun key => by
      have hiff : o.map Key.index = some key.index ↔ o = some ⟨key.index⟩ := map_index_eq_some
      rw [heq, map_index_eq_some] at hiff
      exact hiff.symm
  have hnodes : a.nodes = b.nodes := places_ext (ha.nodes.trans hb.nodes.symm) fun i =>
    hmap (h (.node ⟨i⟩))
  have harcs : a.arcs = b.arcs := places_ext (ha.arcs.trans hb.arcs.symm) fun i =>
    hmap (h (.arc ⟨i⟩))
  have hhyperarcs : a.hyperarcs = b.hyperarcs :=
    places_ext (ha.hyperarcs.trans hb.hyperarcs.symm) fun i => hmap (h (.hyperarc ⟨i⟩))
  obtain ⟨nodes, arcs, hyperarcs⟩ := a
  cases hnodes
  cases harcs
  cases hhyperarcs
  rfl

/-- What `image?_place` says of one kind of elements. -/
theorem map_index_set {κ : Kind} {places : List (Option (Key κ))} {key : Key κ}
    (hlt : key.index < places.length) (slot : Nat) (other : Key κ) :
    ((places.set key.index (some ⟨slot⟩))[other.index]?).join.map Key.index =
      if key = other then some slot else (places[other.index]?).join.map Key.index := by
  rw [join_getElem?_set hlt]
  by_cases h : key = other
  · rw [if_pos (congrArg Key.index h), if_pos h]
    rfl
  · rw [if_neg (Key.index_ne h), if_neg h]

/-- Placing an element fills a place and adds none. -/
theorem Shaped.place {l : Graph} (h : a.Shaped l) (e : PatternElement) (slot : Nat) :
    (a.place e slot).Shaped l := by
  cases e with
  | node key => exact ⟨List.length_set.trans h.nodes, h.arcs, h.hyperarcs⟩
  | arc key => exact ⟨h.nodes, List.length_set.trans h.arcs, h.hyperarcs⟩
  | hyperarc key => exact ⟨h.nodes, h.arcs, List.length_set.trans h.hyperarcs⟩

/-- An image that is given to an element is its image, and no other element's image changes. This
law and `ext_image?` are all that the search needs to know of the representation by lists. -/
theorem image?_place {rule : GrammarRule} (h : a.Shaped rule.l) {e : PatternElement}
    (he : rule.hasElement e = true) (slot : Nat) (other : PatternElement) :
    (a.place e slot).image? other = if e = other then some slot else a.image? other := by
  cases e with
  | node key => cases other with
    | node other =>
      have hlt : key.index < a.nodes.length := h.nodes ▸ Registry.lt_of_contains he
      refine (map_index_set hlt slot other).trans (if_congr ?_ rfl rfl)
      exact ⟨congrArg _, PatternElement.node.inj⟩
    | arc other => exact (if_neg nofun).symm
    | hyperarc other => exact (if_neg nofun).symm
  | arc key => cases other with
    | node other => exact (if_neg nofun).symm
    | arc other =>
      have hlt : key.index < a.arcs.length := h.arcs ▸ Registry.lt_of_contains he
      refine (map_index_set hlt slot other).trans (if_congr ?_ rfl rfl)
      exact ⟨congrArg _, PatternElement.arc.inj⟩
    | hyperarc other => exact (if_neg nofun).symm
  | hyperarc key => cases other with
    | node other => exact (if_neg nofun).symm
    | arc other => exact (if_neg nofun).symm
    | hyperarc other =>
      have hlt : key.index < a.hyperarcs.length := h.hyperarcs ▸ Registry.lt_of_contains he
      refine (map_index_set hlt slot other).trans (if_congr ?_ rfl rfl)
      exact ⟨congrArg _, PatternElement.hyperarc.inj⟩

/-- An assignment is a part of what it becomes when an element without an image is given one.
With `image?_place` this is all that the search needs to know about placing. -/
theorem partOf_place {rule : GrammarRule} (h : a.Shaped rule.l) {e : PatternElement}
    (he : rule.hasElement e = true) (hnew : a.image? e = none) (slot : Nat) :
    a.PartOf (a.place e slot) := by
  intro other other' hother
  rw [image?_place h he]
  split
  · rename_i heq
    rw [← heq, hnew] at hother
    exact nomatch hother
  · exact hother

/-- Images stay distinct when an element is given an unused one. -/
theorem Distinct.place {rule : GrammarRule} (hdistinct : a.Distinct) (h : a.Shaped rule.l)
    {e : PatternElement} (he : rule.hasElement e = true) {slot : Nat} (hunused : a.Unused e slot) :
    (a.place e slot).Distinct := by
  refine distinct_iff.2 fun e₁ e₂ slot' hkind h₁ h₂ => ?_
  rw [image?_place h he] at h₁ h₂
  split at h₁
  · rename_i heq₁
    split at h₂
    · rename_i heq₂
      exact heq₁.symm.trans heq₂
    · cases h₁
      exact absurd h₂ (hunused e₂ (heq₁ ▸ hkind.symm))
  · split at h₂
    · rename_i heq₂
      cases h₂
      exact absurd h₁ (hunused e₁ (heq₂ ▸ hkind))
    · exact distinct_iff.1 hdistinct e₁ e₂ slot' hkind h₁ h₂

end Assignment

end GraphGrammar
