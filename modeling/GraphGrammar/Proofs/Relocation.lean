import Mathlib.Order.Monotone.Basic
import GraphGrammar.Graph.Description
import GraphGrammar.Proofs.Reference

/-!
# Graphs in other slots

A *relocation* takes the slots of each kind to other slots and leaves them in their
order. It takes one graph to another (`Graph.Relocated`) if the elements of the
second are those of the first, in the slots they were taken to, and all slots that
have not been filled yet correspond as well. The second graph may have empty slots
between the elements that the first does not have.

Two such graphs list their elements in the same order, find the same names and
describe themselves in the same words (`Graph.Relocated.describe_eq`). The same
edit of both leads to two such graphs again, under the same relocation: an element
that is added gets the next slot in either graph, and these two correspond.

This is the notion by which the independence of slots is proved, and it is proved by simulation:
whatever the engine does with a graph it does with a relocated one, step by step. The edits below
are the steps of this simulation. Above them come recognition
(`GraphGrammar.Proofs.RelocatedRecognition`), applications
(`GraphGrammar.Proofs.RelocatedApplication`) and runs (`GraphGrammar.Proofs.RelocatedRun`).
-/

namespace GraphGrammar

open Attributed Connected

/-- Takes the slots of each kind to slots in the same order. -/
structure Relocation where
  slot : Kind → Nat → Nat
  strictMono : ∀ κ, StrictMono (slot κ)

namespace Relocation

variable (σ : Relocation) {κ : Kind}

/-- Where a key is taken to. -/
def key (key : Key κ) : Key κ := ⟨σ.slot κ key.index⟩

/-- Slots that are in the same order are not mixed up. -/
theorem key_injective : Function.Injective (σ.key : Key κ → Key κ) := by
  intro a b h
  have hindex := (σ.strictMono κ).injective (congrArg Key.index h)
  cases a
  cases b
  exact congrArg Key.mk hindex

@[simp] theorem key_inj {a b : Key κ} : σ.key a = σ.key b ↔ a = b := σ.key_injective.eq_iff

/-- Keys are listed in ascending order, and a relocation keeps the order of whatever is listed.
-/
theorem key_lt {a b : Key κ} (h : a.index < b.index) : (σ.key a).index < (σ.key b).index :=
  σ.strictMono κ h

/-- An element with the nodes it refers to taken along. -/
def move {α : Type} [Attributed α] [Connected α] (a : α) : α :=
  mapNodes (fun node => some (σ.key node)) a

section

variable {α : Type} [Attributed α] [Connected α]

@[simp] theorem attributes_move (a : α) : attributes (σ.move a) = attributes a :=
  attributes_mapNodes _ a

/-- An element that is taken along keeps its name. So look-ups by name and searches for a free
name come to the same in both graphs. -/
@[simp] theorem nameOf_move (a : α) : nameOf (σ.move a) = nameOf a :=
  congrArg Attributes.name (σ.attributes_move a)

@[simp] theorem move_renamed (a : α) (name : Name) :
    σ.move (renamed a name) = renamed (σ.move a) name := mapNodes_renamed _ a name

/-- Changing attributes along a rule has nothing to do with references. -/
theorem move_moveAlong (a before after : α) :
    σ.move (Attributed.moveAlong a before after)
      = Attributed.moveAlong (σ.move a) before after := mapNodes_moveAlong _ a before after

end

/-! ### Ends and members

Taking an element along commutes with every change of its ends and members. In each of these
lemmas the change on the right is the one on the left with its keys translated. -/

@[simp] theorem source_move (arc : Arc) : (σ.move arc).source = arc.source.map σ.key := by
  show arc.source.bind _ = _
  cases arc.source <;> rfl

@[simp] theorem target_move (arc : Arc) : (σ.move arc).target = arc.target.map σ.key := by
  show arc.target.bind _ = _
  cases arc.target <;> rfl

@[simp] theorem atEnd_move (arc : Arc) (e : ArcEnd) :
    (σ.move arc).atEnd e = (arc.atEnd e).map σ.key := by
  cases e
  · exact σ.source_move arc
  · exact σ.target_move arc

/-- Attaching an end and taking the arc along, in either order. -/
theorem move_withEnd (arc : Arc) (e : ArcEnd) (node : Option NodeKey) :
    σ.move (arc.withEnd e node) = (σ.move arc).withEnd e (node.map σ.key) := by
  have hnode : node.bind (fun node => some (σ.key node)) = node.map σ.key := by
    cases node <;> rfl
  rw [← hnode]
  cases e <;> rfl

@[simp] theorem ends_move (arc : Arc) : (σ.move arc).ends = arc.ends.map σ.key := by
  unfold Arc.ends
  rw [source_move, target_move]
  cases arc.source <;> cases arc.target <;> rfl

/-- Whether an end is at a node can be asked in either graph. -/
theorem map_key_eq_some_iff {side : Option NodeKey} {node : NodeKey} :
    side.map σ.key = some (σ.key node) ↔ side = some node := by
  cases side with
  | none => exact ⟨nofun, nofun⟩
  | some other => simp

theorem move_detach (arc : Arc) (node : NodeKey) :
    σ.move (arc.detach node) = (σ.move arc).detach (σ.key node) := by
  have hend : ∀ side : Option NodeKey,
      (if side = some node then none else side).bind (fun node => some (σ.key node))
        = if side.bind (fun node => some (σ.key node)) = some (σ.key node) then none
          else side.bind fun node => some (σ.key node) := by
    intro side
    cases side with
    | none => rfl
    | some other =>
      by_cases h : other = node
      · simp [h]
      · simp [h]
  show (arc.detach node).mapEnds _ = (arc.mapEnds _).detach (σ.key node)
  unfold Arc.detach Arc.mapEnds
  dsimp only
  rw [hend, hend]

@[simp] theorem members_move (hyperarc : HyperArc) :
    (σ.move hyperarc).members = hyperarc.members.map σ.key :=
  congrFun List.filterMap_eq_map' _

@[simp] theorem contains_map {keys : List (Key κ)} {key : Key κ} :
    (keys.map σ.key).contains (σ.key key) = keys.contains key := by
  rw [Bool.eq_iff_iff, List.contains_iff_mem, List.contains_iff_mem,
    List.mem_map_of_injective σ.key_injective]

@[simp] theorem hyperarc_contains_move (hyperarc : HyperArc) (node : NodeKey) :
    (σ.move hyperarc).contains (σ.key node) = hyperarc.contains node := by
  rw [HyperArc.contains, members_move, contains_map, HyperArc.contains]

theorem move_detach_member (hyperarc : HyperArc) (node : NodeKey) :
    σ.move (hyperarc.detach node) = (σ.move hyperarc).detach (σ.key node) := by
  have hmembers : (hyperarc.members.filter (· != node)).filterMap (fun node => some (σ.key node))
      = (hyperarc.members.filterMap fun node => some (σ.key node)).filter (· != σ.key node) := by
    rw [List.filterMap_eq_map', List.filter_map]
    congr 1
    refine List.filter_congr fun other _ => ?_
    rw [Bool.eq_iff_iff]
    simp
  show HyperArc.mapMembers _ _ = HyperArc.detach (HyperArc.mapMembers _ _) _
  unfold HyperArc.detach HyperArc.mapMembers
  dsimp only
  rw [hmembers]

theorem move_attach (hyperarc : HyperArc) (node : NodeKey) :
    σ.move (hyperarc.attach node) = (σ.move hyperarc).attach (σ.key node) := by
  unfold HyperArc.attach
  rw [hyperarc_contains_move]
  split
  · rfl
  · show HyperArc.mapMembers _ _ = _
    simp [HyperArc.mapMembers, move, mapNodes]

end Relocation

/-! ## Registries

Whatever is asked of a registry by name, by key or by going over its elements gets the same
answer from a relocated one, translated. -/

/-- Two maps in which the same names are taken give the same free names. -/
theorem uniqueName_congr {β γ : Type} {taken : NameMap β} {other : NameMap γ}
    (h : ∀ name, taken.contains name = other.contains name) (base : Name) :
    uniqueName taken base = uniqueName other base := by
  rcases uniqueName_eq taken base with ⟨hfree, heq⟩ | ⟨htaken, i, -, heq, hfree, hbefore⟩
  · rw [heq, uniqueName_of_free (h base ▸ hfree)]
  rcases uniqueName_eq other base with ⟨hfree', -⟩ | ⟨-, j, -, heq', hfree', hbefore'⟩
  · exact absurd (htaken.symm.trans ((h base).trans hfree')) nofun
  -- either number is the first one that is free
  have hij : i = j := by
    rcases Nat.lt_trichotomy i j with hlt | heq | hgt
    · exact absurd ((hbefore' i hlt).symm.trans ((h _).symm.trans hfree)) nofun
    · exact heq
    · exact absurd ((hbefore j hgt).symm.trans ((h _).trans hfree')) nofun
  rw [heq, heq', hij]

namespace Registry

variable {κ : Kind} {α : Type} [Attributed α] [Connected α] {σ : Relocation}
  {r r' after : Registry κ α}

/-- The elements of the second registry are those of the first, in the slots they
were taken to. -/
structure Relocated (σ : Relocation) (r r' : Registry κ α) : Prop where
  /-- The slots to come correspond. -/
  fresh : ∀ i, σ.slot κ (r.cells.length + i) = r'.cells.length + i
  finds : ∀ key, r'.get? (σ.key key) = (r.get? key).map σ.move
  /-- There are no other elements. -/
  covers : ∀ key a, r'.get? key = some a → ∃ source, σ.key source = key
  names : ∀ name, r'.find? name = (r.find? name).map σ.key

namespace Relocated

variable (h : Relocated σ r r')
include h

/-- **The next slots correspond**, and so will the elements that are put into them. This is what
a bijection between the elements that are there could not give. -/
theorem nextKey : r'.nextKey = σ.key r.nextKey := congrArg Key.mk (h.fresh 0).symm

theorem index_lt_iff {key : Key κ} :
    (σ.key key).index < r'.cells.length ↔ key.index < r.cells.length := by
  rw [show r'.cells.length = σ.slot κ r.cells.length from (h.fresh 0).symm]
  exact (σ.strictMono κ).lt_iff_lt

theorem contains (key : Key κ) : r'.contains (σ.key key) = r.contains key := by
  rw [Registry.contains, h.finds, Option.isSome_map, Registry.contains]

/-- The same names are in use. -/
theorem contains_name (name : Name) : r'.names.contains name = r.names.contains name := by
  have hname := h.names name
  rw [Registry.find?, Registry.find?] at hname
  rw [NameMap.contains, NameMap.contains, hname, Option.isSome_map]

/-- The entries of the second registry are those of the first, taken along, and no others. The
second registry may have empty slots in between; they have no entries. -/
theorem mem_entries_iff {entry : Key κ × α} :
    entry ∈ r'.entries ↔ ∃ source ∈ r.entries, (σ.key source.1, σ.move source.2) = entry := by
  obtain ⟨key, a⟩ := entry
  rw [Registry.mem_entries_iff]
  constructor
  · intro ha
    obtain ⟨source, rfl⟩ := h.covers key a ha
    rw [h.finds] at ha
    obtain ⟨b, hb, rfl⟩ := Option.map_eq_some_iff.1 ha
    exact ⟨(source, b), Registry.mem_entries_iff.2 hb, rfl⟩
  · rintro ⟨⟨source, b⟩, hmem, heq⟩
    cases heq
    rw [h.finds, Registry.mem_entries_iff.1 hmem, Option.map_some]

/-- **The elements are listed in the same order.** -/
theorem entries : r'.entries = r.entries.map fun entry => (σ.key entry.1, σ.move entry.2) := by
  refine Registry.entries_eq_of_mem_iff
    (List.pairwise_map.2 (r.pairwise_entries.imp fun hlt => σ.key_lt hlt)) fun key a => ?_
  rw [← Registry.mem_entries_iff, h.mem_entries_iff, List.mem_map]

theorem keys : r'.keys = r.keys.map σ.key := by
  rw [Registry.keys, h.entries, List.map_map, Registry.keys, List.map_map]
  rfl

theorem elements : r'.elements = r.elements.map σ.move := by
  rw [Registry.elements, h.entries, List.map_map, Registry.elements, List.map_map]
  rfl

theorem count : r'.count = r.count := by
  have hperm : r'.names.names.Perm r.names.names :=
    (List.perm_ext_iff_of_nodup r'.names.nodup_names r.names.nodup_names).2 fun name => by
      rw [NameMap.mem_names_iff, NameMap.mem_names_iff, h.contains_name]
  have hlength := hperm.length_eq
  rwa [NameMap.length_names, NameMap.length_names] at hlength

/-! ### The same edit of both -/

/-- The same element put into both. The names in use are the same, so it is numbered alike. -/
theorem pushUnique (a : α) : Relocated σ (r.pushUnique a).2 (r'.pushUnique (σ.move a)).2 := by
  have hname : uniqueName r'.names (nameOf (σ.move a)) = uniqueName r.names (nameOf a) := by
    rw [Relocation.nameOf_move, uniqueName_congr h.contains_name]
  constructor
  · intro i
    rw [length_cells_pushUnique, length_cells_pushUnique, Nat.add_assoc, Nat.add_assoc]
    exact h.fresh (1 + i)
  · intro key
    rw [get?_pushUnique, get?_pushUnique, h.nextKey, hname]
    simp only [Relocation.key_inj]
    split
    · rw [Option.map_some, Relocation.move_renamed]
    · exact h.finds key
  · intro key b hb
    rw [get?_pushUnique] at hb
    split at hb
    · rename_i hkey
      exact ⟨r.nextKey, (hkey.trans h.nextKey).symm⟩
    · exact h.covers key b hb
  · intro name
    show (r'.names.insert (nameOf _) _).find? name
      = ((r.names.insert (nameOf _) _).find? name).map σ.key
    rw [NameMap.find?_insert, NameMap.find?_insert, nameOf_renamed, nameOf_renamed,
      hname, h.nextKey]
    split
    · rfl
    · exact h.names name

/-- An element that is removed from one of them is there to be removed from the other. Its slot
is empty afterwards on both sides, and the slot it is taken to is the slot of nothing else. -/
theorem erase {key : Key κ} {a : α} (herase : r.erase key = some (a, after)) :
    ∃ after', r'.erase (σ.key key) = some (σ.move a, after') ∧ Relocated σ after after' := by
  have ha : r.get? key = some a := by
    obtain ⟨b, hb, heq⟩ := Option.map_eq_some_iff.1 herase
    cases heq
    exact hb
  -- the name is struck from the index on both sides, as an element keeps its name when it is
  -- moved
  have hafter : after.names = r.names.erase (nameOf a) := by
    obtain ⟨b, -, heq⟩ := Option.map_eq_some_iff.1 herase
    cases heq
    rfl
  have herase' : r'.erase (σ.key key) = some (σ.move a,
      ⟨r'.cells.set (σ.key key).index none, r'.names.erase (nameOf (σ.move a))⟩) := by
    rw [Registry.erase, h.finds, ha]
    rfl
  refine ⟨_, herase', ?_⟩
  constructor
  · intro i
    rw [length_cells_erase herase, length_cells_erase herase']
    exact h.fresh i
  · intro other
    rw [get?_erase herase', get?_erase herase]
    simp only [Relocation.key_inj]
    split
    · rfl
    · exact h.finds other
  · intro other b hb
    rw [get?_erase herase'] at hb
    split at hb
    · exact nomatch hb
    · exact h.covers other b hb
  · intro name
    rw [Registry.find?, Registry.find?, hafter, NameMap.find?_erase, NameMap.find?_erase,
      Relocation.nameOf_move]
    split
    · rfl
    · exact h.names name

theorem erase_eq_none {key : Key κ} (herase : r.erase key = none) :
    r'.erase (σ.key key) = none := by
  rw [erase_eq_none_iff] at herase ⊢
  rw [h.finds, herase, Option.map_none]

/-- The two changes need not be the same function, since one of them may speak of keys. They have
to commute with taking the element along. -/
theorem modify {f f' : α → α} (key : Key κ) (hf : ∀ a, f' (σ.move a) = σ.move (f a)) :
    Relocated σ (r.modify key f) (r'.modify (σ.key key) f') := by
  constructor
  · intro i
    rw [length_cells_modify, length_cells_modify]
    exact h.fresh i
  · intro other
    rw [get?_modify, get?_modify, h.finds]
    simp only [Relocation.key_inj]
    split
    · rw [Option.map_map, Option.map_map]
      exact congrArg (Option.map · _) (funext hf)
    · rfl
  · intro other b hb
    rw [get?_modify] at hb
    split at hb
    · obtain ⟨a, ha, -⟩ := Option.map_eq_some_iff.1 hb
      exact h.covers other a ha
    · exact h.covers other b hb
  · exact h.names

theorem mapElements {f f' : α → α} (hf : ∀ a, f' (σ.move a) = σ.move (f a)) :
    Relocated σ (r.mapElements f) (r'.mapElements f') := by
  constructor
  · intro i
    rw [length_cells_mapElements, length_cells_mapElements]
    exact h.fresh i
  · intro other
    rw [get?_mapElements, get?_mapElements, h.finds, Option.map_map, Option.map_map]
    exact congrArg (Option.map · _) (funext hf)
  · intro other b hb
    rw [get?_mapElements] at hb
    obtain ⟨a, ha, -⟩ := Option.map_eq_some_iff.1 hb
    exact h.covers other a ha
  · exact h.names

end Relocated

end Registry

/-! ## Results that agree

An edit may be refused, and what it says then names a key, which is another one in the other
graph. Results are therefore compared in two ways at once: failures by one relation and successes
by another. -/

/-- Two results that are both failures or both none, and related either way. -/
inductive Agree {ε ε' α α' : Type} (E : ε → ε' → Prop) (R : α → α' → Prop) :
    Except ε α → Except ε' α' → Prop
  | error {e : ε} {e' : ε'} (h : E e e') : Agree E R (.error e) (.error e')
  | ok {a : α} {a' : α'} (h : R a a') : Agree E R (.ok a) (.ok a')

namespace Agree

variable {ε ε' δ δ' α α' β β' τ τ' : Type} {E : ε → ε' → Prop} {D : δ → δ' → Prop}
  {R : α → α' → Prop} {S : β → β' → Prop} {x : Except ε α} {x' : Except ε' α'}

/-- Chains of steps that agree one by one agree. -/
theorem bind {f : α → Except ε β} {f' : α' → Except ε' β'} (h : Agree E R x x')
    (hf : ∀ a a', R a a' → Agree E S (f a) (f' a')) : Agree E S (x >>= f) (x' >>= f') := by
  cases h with
  | error h => exact .error h
  | ok h => exact hf _ _ h

/-- Rewording the failures of both keeps them related if the rewordings are. -/
theorem mapError {f : ε → δ} {f' : ε' → δ'} (h : Agree E R x x')
    (hf : ∀ e e', E e e' → D (f e) (f' e')) : Agree D R (x.mapError f) (x'.mapError f') := by
  cases h with
  | error h => exact .error (hf _ _ h)
  | ok h => exact .ok h

/-- Two passes agree if each step of them does. -/
theorem foldlM {f : α → τ → Except ε α} {f' : α' → τ' → Except ε' α'} {m : τ → τ'} :
    ∀ {xs : List τ} {a : α} {a' : α'},
      (∀ t ∈ xs, ∀ a a', R a a' → Agree E R (f a t) (f' a' (m t))) → R a a' →
      Agree E R (xs.foldlM f a) ((xs.map m).foldlM f' a')
  | [], _, _, _, h => .ok h
  | t :: rest, a, a', hf, h => by
    rw [List.map_cons, List.foldlM_cons, List.foldlM_cons]
    exact (hf t List.mem_cons_self a a' h).bind fun b b' hb =>
      foldlM (fun u hu => hf u (List.mem_cons_of_mem _ hu)) hb

/-- Two passes over the same list agree if each step of them does. -/
theorem foldlM_same {f : α → τ → Except ε α} {f' : α' → τ → Except ε' α'} {xs : List τ} {a : α}
    {a' : α'} (hf : ∀ t ∈ xs, ∀ a a', R a a' → Agree E R (f a t) (f' a' t)) (h : R a a') :
    Agree E R (xs.foldlM f a) (xs.foldlM f' a') := by
  have hpass := foldlM (m := id) hf h
  rwa [List.map_id] at hpass

/-- Results that succeed together agree if they agree where they succeed. -/
theorem of_succeeds (hsucceeds : (∃ a, x = .ok a) ↔ ∃ a', x' = .ok a')
    (hsame : ∀ a a', x = .ok a → x' = .ok a' → R a a') : Agree (fun _ _ => True) R x x' := by
  cases hx : x with
  | ok a =>
    obtain ⟨a', ha'⟩ := hsucceeds.1 ⟨a, hx⟩
    rw [ha']
    exact .ok (hsame a a' hx ha')
  | error e =>
    cases hx' : x' with
    | ok a' =>
      obtain ⟨a, ha⟩ := hsucceeds.2 ⟨a', hx'⟩
      exact nomatch hx.symm.trans ha
    | error e' => exact .error trivial

end Agree

/-! ## Graphs

Three registries side by side, under one relocation, with the globals equal. -/

namespace Graph

variable {σ : Relocation} {g g' after : Graph}

/-- The elements of the second graph are those of the first, in the slots they were
taken to. -/
structure Relocated (σ : Relocation) (g g' : Graph) : Prop where
  nodes : g.nodes.Relocated σ g'.nodes
  arcs : g.arcs.Relocated σ g'.arcs
  hyperarcs : g.hyperarcs.Relocated σ g'.hyperarcs
  name : g'.name = g.name
  globalLabels : g'.globalLabels = g.globalLabels
  globalVariables : g'.globalVariables = g.globalVariables

namespace Relocated

variable (h : g.Relocated σ g')
include h

/-- Nodes have no references, so they are the same in both graphs. -/
theorem node? (key : NodeKey) : g'.node? (σ.key key) = g.node? key := by
  refine (h.nodes.finds key).trans ?_
  exact congrFun (Option.map_id (α := Node)) _

theorem arc? (key : ArcKey) : g'.arc? (σ.key key) = (g.arc? key).map σ.move := h.arcs.finds key

theorem hyperarc? (key : HyperArcKey) :
    g'.hyperarc? (σ.key key) = (g.hyperarc? key).map σ.move := h.hyperarcs.finds key

theorem hasNode (key : NodeKey) : g'.hasNode (σ.key key) = g.hasNode key := h.nodes.contains key

/-- Ends are compared by the names of their nodes. This is the form in which rules see them. -/
theorem nodeName? (side : Option NodeKey) :
    g'.nodeName? (side.map σ.key) = g.nodeName? side := by
  cases side with
  | none => rfl
  | some key => exact congrArg (Option.map _) (h.node? key)

/-! ### What does not depend on the slots

A description has no keys, so the two graphs have the same. -/

theorem describeArc (arc : Arc) : g'.describeArc (σ.move arc) = g.describeArc arc := by
  unfold Graph.describeArc
  rw [σ.source_move, σ.target_move, h.nodeName?, h.nodeName?]
  rfl

theorem describeHyperArc (hyperarc : HyperArc) :
    g'.describeHyperArc (σ.move hyperarc) = g.describeHyperArc hyperarc := by
  unfold Graph.describeHyperArc
  rw [σ.members_move, List.filterMap_map]
  have hname : (fun key => g'.nodeName? (some key)) ∘ σ.key = fun key => g.nodeName? (some key) :=
    funext fun key => h.nodeName? (some key)
  rw [hname]
  rfl

/-- **Both graphs describe themselves in the same words.** -/
theorem describe_eq : g'.describe = g.describe := by
  unfold Graph.describe
  rw [h.nodes.elements, h.arcs.elements, h.hyperarcs.elements, List.map_map, List.map_map,
    List.map_map, h.name, h.globalLabels, h.globalVariables]
  rw [show g'.describeArc ∘ σ.move = g.describeArc from funext h.describeArc,
    show g'.describeHyperArc ∘ σ.move = g.describeHyperArc from funext h.describeHyperArc]
  rfl

/-! ### The same edit of both -/

theorem modifyNode {f f' : Node → Node} (key : NodeKey) (hf : ∀ a, f' a = f a) :
    (g.modifyNode key f).Relocated σ (g'.modifyNode (σ.key key) f') :=
  { h with nodes := h.nodes.modify key hf }

theorem modifyArc {f f' : Arc → Arc} (key : ArcKey) (hf : ∀ a, f' (σ.move a) = σ.move (f a)) :
    (g.modifyArc key f).Relocated σ (g'.modifyArc (σ.key key) f') :=
  { h with arcs := h.arcs.modify key hf }

theorem modifyHyperArc {f f' : HyperArc → HyperArc} (key : HyperArcKey)
    (hf : ∀ a, f' (σ.move a) = σ.move (f a)) :
    (g.modifyHyperArc key f).Relocated σ (g'.modifyHyperArc (σ.key key) f') :=
  { h with hyperarcs := h.hyperarcs.modify key hf }

/-- Removing a node detaches what is attached to it, and that is the same in both graphs by the
commutation of detaching with taking along. -/
theorem removeNode {key : NodeKey} {node : Node} (hr : g.removeNode key = some (node, after)) :
    ∃ after', g'.removeNode (σ.key key) = some (node, after') ∧ after.Relocated σ after' := by
  unfold Graph.removeNode at hr
  obtain ⟨⟨node, nodes⟩, herase, heq⟩ := Option.map_eq_some_iff.1 hr
  cases heq
  obtain ⟨nodes', herase', hnodes⟩ := h.nodes.erase herase
  refine ⟨_, by rw [Graph.removeNode, herase']; rfl, ?_⟩
  exact { h with
    nodes := hnodes
    arcs := h.arcs.mapElements fun arc => (σ.move_detach arc key).symm
    hyperarcs := h.hyperarcs.mapElements fun hyperarc => (σ.move_detach_member hyperarc key).symm }

theorem removeNode_eq_none {key : NodeKey} (hr : g.removeNode key = none) :
    g'.removeNode (σ.key key) = none := by
  rw [Graph.removeNode, Option.map_eq_none_iff] at hr ⊢
  exact h.nodes.erase_eq_none hr

theorem removeArc {key : ArcKey} {arc : Arc} (hr : g.removeArc key = some (arc, after)) :
    ∃ after', g'.removeArc (σ.key key) = some (σ.move arc, after') ∧ after.Relocated σ after' := by
  unfold Graph.removeArc at hr
  obtain ⟨⟨arc, arcs⟩, herase, heq⟩ := Option.map_eq_some_iff.1 hr
  cases heq
  obtain ⟨arcs', herase', harcs⟩ := h.arcs.erase herase
  refine ⟨_, by rw [Graph.removeArc, herase']; rfl, ?_⟩
  exact { h with arcs := harcs }

theorem removeArc_eq_none {key : ArcKey} (hr : g.removeArc key = none) :
    g'.removeArc (σ.key key) = none := by
  rw [Graph.removeArc, Option.map_eq_none_iff] at hr ⊢
  exact h.arcs.erase_eq_none hr

theorem removeHyperArc {key : HyperArcKey} {hyperarc : HyperArc}
    (hr : g.removeHyperArc key = some (hyperarc, after)) :
    ∃ after', g'.removeHyperArc (σ.key key) = some (σ.move hyperarc, after') ∧
      after.Relocated σ after' := by
  unfold Graph.removeHyperArc at hr
  obtain ⟨⟨hyperarc, hyperarcs⟩, herase, heq⟩ := Option.map_eq_some_iff.1 hr
  cases heq
  obtain ⟨hyperarcs', herase', hhyperarcs⟩ := h.hyperarcs.erase herase
  refine ⟨_, by rw [Graph.removeHyperArc, herase']; rfl, ?_⟩
  exact { h with hyperarcs := hhyperarcs }

theorem removeHyperArc_eq_none {key : HyperArcKey} (hr : g.removeHyperArc key = none) :
    g'.removeHyperArc (σ.key key) = none := by
  rw [Graph.removeHyperArc, Option.map_eq_none_iff] at hr ⊢
  exact h.hyperarcs.erase_eq_none hr

theorem addNodeUnique (node : Node) :
    (g'.addNodeUnique node).1 = σ.key (g.addNodeUnique node).1 ∧
      (g.addNodeUnique node).2.Relocated σ (g'.addNodeUnique node).2 :=
  ⟨h.nodes.nextKey, { h with nodes := h.nodes.pushUnique node }⟩

/-- The check of the ends is passed by both graphs or by neither. What a refusal says is not
compared, as it names a key. -/
theorem addArcUnique (arc : Arc) :
    Agree (fun _ _ => True) (fun new new' => new'.1 = σ.key new.1 ∧ new.2.Relocated σ new'.2)
      (g.addArcUnique arc) (g'.addArcUnique (σ.move arc)) := by
  have halive : (∀ node ∈ (σ.move arc).ends, g'.hasNode node = true) ↔
      ∀ node ∈ arc.ends, g.hasNode node = true := by
    simp [h.hasNode]
  refine .of_succeeds ?_ fun new new' hadd hadd' => ?_
  · constructor
    · rintro ⟨new, hadd⟩
      exact ⟨_, addArcUnique_eq_ok (halive.2 (of_addArcUnique_eq_ok hadd).1)⟩
    · rintro ⟨new, hadd⟩
      exact ⟨_, addArcUnique_eq_ok (halive.1 (of_addArcUnique_eq_ok hadd).1)⟩
  · obtain ⟨hends, -⟩ := of_addArcUnique_eq_ok hadd
    rw [addArcUnique_eq_ok hends] at hadd
    rw [addArcUnique_eq_ok (halive.2 hends)] at hadd'
    cases hadd
    cases hadd'
    exact ⟨h.arcs.nextKey, { h with arcs := h.arcs.pushUnique arc }⟩

theorem addHyperArcUnique (hyperarc : HyperArc) :
    Agree (fun _ _ => True) (fun new new' => new'.1 = σ.key new.1 ∧ new.2.Relocated σ new'.2)
      (g.addHyperArcUnique hyperarc) (g'.addHyperArcUnique (σ.move hyperarc)) := by
  have halive : (∀ node ∈ (σ.move hyperarc).members, g'.hasNode node = true) ↔
      ∀ node ∈ hyperarc.members, g.hasNode node = true := by
    simp [h.hasNode]
  refine .of_succeeds ?_ fun new new' hadd hadd' => ?_
  · constructor
    · rintro ⟨new, hadd⟩
      exact ⟨_, addHyperArcUnique_eq_ok (halive.2 (of_addHyperArcUnique_eq_ok hadd).1)⟩
    · rintro ⟨new, hadd⟩
      exact ⟨_, addHyperArcUnique_eq_ok (halive.1 (of_addHyperArcUnique_eq_ok hadd).1)⟩
  · obtain ⟨hmembers, -⟩ := of_addHyperArcUnique_eq_ok hadd
    rw [addHyperArcUnique_eq_ok hmembers] at hadd
    rw [addHyperArcUnique_eq_ok (halive.2 hmembers)] at hadd'
    cases hadd
    cases hadd'
    exact ⟨h.hyperarcs.nextKey, { h with hyperarcs := h.hyperarcs.pushUnique hyperarc }⟩

/-- Attaching an end is refused in both graphs or in neither. -/
theorem setArcEnd (key : ArcKey) (e : ArcEnd) (node : Option NodeKey) :
    Agree (fun _ _ => True) (Relocated σ) (g.setArcEnd key e node)
      (g'.setArcEnd (σ.key key) e (node.map σ.key)) := by
  have hdead : (node.map σ.key).filter (!g'.hasNode ·)
      = (node.filter (!g.hasNode ·)).map σ.key := by
    cases node with
    | none => rfl
    | some node => simp [Option.filter, h.hasNode]
  unfold Graph.setArcEnd
  rw [hdead, h.arcs.contains]
  cases node.filter (!g.hasNode ·) with
  | some dead => exact .error trivial
  | none =>
    dsimp only [Option.map_none]
    split
    · exact .ok (h.modifyArc key fun arc => (σ.move_withEnd arc e node).symm)
    · exact .error trivial

theorem addToHyperArc (key : HyperArcKey) (node : NodeKey) :
    Agree (fun _ _ => True) (Relocated σ) (g.addToHyperArc key node)
      (g'.addToHyperArc (σ.key key) (σ.key node)) := by
  unfold Graph.addToHyperArc
  rw [h.hasNode, h.hyperarcs.contains]
  split
  · exact .error trivial
  split
  · exact .ok (h.modifyHyperArc key fun hyperarc => (σ.move_attach hyperarc node).symm)
  · exact .error trivial

theorem removeFromHyperArc (key : HyperArcKey) (node : NodeKey) :
    Agree (fun _ _ => True) (Relocated σ) (g.removeFromHyperArc key node)
      (g'.removeFromHyperArc (σ.key key) (σ.key node)) := by
  unfold Graph.removeFromHyperArc
  rw [h.hyperarcs.contains]
  split
  · exact .ok (h.modifyHyperArc key fun hyperarc => (σ.move_detach_member hyperarc node).symm)
  · exact .error trivial

end Relocated

end Graph

end GraphGrammar
