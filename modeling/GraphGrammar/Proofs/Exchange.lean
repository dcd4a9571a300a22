import GraphGrammar.Proofs.Reference
import Mathlib.Logic.Equiv.Defs

/-!
# Two applications in one order and in the other

If two applications are carried out one after the other, what the first one adds
gets the next keys and what the second one adds gets those after them. In the
other order the two blocks of keys are exchanged (`Key.exchange`), and the added
elements refer to each other by the exchanged keys. Apart from this the two
orders lead to the same elements, and that is `Registry.SameUpTo`.

What it takes is told for one kind of elements at a time. An `Effect` is what an
application does to the elements of a kind, depending on the places of the nodes
of R; it is `Local` if it leaves everything but images alone, apart from nodes
that go, and does the rest naturally. A `Footprint` is what an application has to
do with nodes. Two local effects with footprints that are `Apart` commute
(`Effect.sameUpTo`).

The method is that an application is natural in the nodes: if the nodes are renumbered before it,
its result is renumbered. An exchange of keys is a renumbering, and so the effect that comes
second, carried out where other nodes have taken its keys, is its own effect with these keys
exchanged.
-/

namespace GraphGrammar

open Attributed Connected

/-! ## Exchanging two blocks of keys

The exchange is a permutation of all keys, so that it can be inverted. It is the identity on the
keys that the host had before, which is where all images are. -/

/-- Where an index goes if the `a` indices from `n` on change places with the
`b` indices after them. -/
def exchanged (n a b index : Nat) : Nat :=
  if index < n then index
  else if index < n + a then index + b
  else if index < n + a + b then index - a
  else index

/-- Exchanging twice leads back. -/
theorem exchanged_exchanged (n a b index : Nat) :
    exchanged n b a (exchanged n a b index) = index := by
  unfold exchanged
  split_ifs <;> omega

/-- **The exchange of two blocks of keys.** -/
def Key.exchange {κ : Kind} (n a b : Nat) : Equiv.Perm (Key κ) where
  toFun key := ⟨exchanged n a b key.index⟩
  invFun key := ⟨exchanged n b a key.index⟩
  left_inv key := congrArg Key.mk (exchanged_exchanged n a b key.index)
  right_inv key := congrArg Key.mk (exchanged_exchanged n b a key.index)

namespace Key

variable {κ : Kind} {n a b : Nat}

/-- Keys from before stay. -/
theorem exchange_of_lt {key : Key κ} (h : key.index < n) : exchange n a b key = key :=
  congrArg Key.mk (if_pos h)

/-- A key of the first block goes behind the second block. -/
theorem exchange_first {i : Nat} (h : i < a) :
    exchange n a b (⟨n + i⟩ : Key κ) = ⟨n + b + i⟩ := by
  refine congrArg Key.mk ?_
  show exchanged n a b (n + i) = _
  unfold exchanged
  split_ifs <;> omega

/-- A key of the second block takes the place of the first. -/
theorem exchange_second {j : Nat} (h : j < b) :
    exchange n a b (⟨n + a + j⟩ : Key κ) = ⟨n + j⟩ := by
  refine congrArg Key.mk ?_
  show exchanged n a b (n + a + j) = _
  unfold exchanged
  split_ifs <;> omega

/-- Keys beyond both blocks stay. -/
theorem exchange_beyond {key : Key κ} (h : n + a + b ≤ key.index) :
    exchange n a b key = key := by
  refine congrArg Key.mk ?_
  show exchanged n a b key.index = _
  unfold exchanged
  split_ifs <;> omega

/-- A key is old, or in the first block, or in the second block, or beyond. -/
theorem block_cases (n a b : Nat) (key : Key κ) :
    key.index < n ∨ (∃ i < a, key = ⟨n + i⟩) ∨ (∃ j < b, key = ⟨n + a + j⟩) ∨
      n + a + b ≤ key.index := by
  obtain ⟨index⟩ := key
  show index < n ∨ _ ∨ _ ∨ n + a + b ≤ index
  rcases Nat.lt_or_ge index n with h | h
  · exact .inl h
  rcases Nat.lt_or_ge index (n + a) with h' | h'
  · exact .inr (.inl ⟨index - n, by omega, congrArg Key.mk (by omega)⟩)
  rcases Nat.lt_or_ge index (n + a + b) with h'' | h''
  · exact .inr (.inr (.inl ⟨index - (n + a), by omega, congrArg Key.mk (by omega)⟩))
  · exact .inr (.inr (.inr h''))

end Key

/-! ## The same up to what was added

Names of added elements may differ as well, since a number is put behind a name that is taken,
and which of two additions comes first decides who gets it. -/

section

variable {κ : Kind} {α : Type} [Attributed α]

/-- An element with its name left out. -/
def unnamed (a : α) : α := renamed a ""

/-- Without its name an element does not tell that it was renamed. -/
@[simp] theorem unnamed_renamed (a : α) (name : Name) : unnamed (renamed a name) = unnamed a := by
  simp [unnamed, renamed]

/-- **Two registries are the same up to the keys and names of what was added.**
The elements with keys below `n` were there before, and the elements of one
registry are those of the other with the nodes they refer to replaced. -/
structure Registry.SameUpTo (n : Nat) (σ : Equiv.Perm (Key κ)) (replace : α → α)
    (r s : Registry κ α) : Prop where
  fixes : ∀ key, key.index < n → σ key = key
  old : ∀ key, key.index < n → s.get? key = (r.get? key).map replace
  added : ∀ key, n ≤ key.index →
    (s.get? (σ key)).map unnamed = (r.get? key).map fun a => unnamed (replace a)

/-! ## Effects and footprints

An effect takes the places of the nodes of R as an argument. Renumbering it is thus a matter of
giving it other places. -/

/-- What an application does to the elements of one kind, told by the places of the nodes of R.
The images, the fates and the additions of one kind are what is needed to compare two orders. -/
structure Effect (κ : Kind) (α : Type) where
  images : List (Key κ)
  /-- What becomes of the elements that are there. -/
  fate : (NodeKey → Option NodeKey) → Key κ → α → Option α
  added : (NodeKey → Option NodeKey) → List α

/-- What an application has to do with nodes. -/
structure Footprint where
  images : List NodeKey
  gone : List NodeKey
  /-- The places of the nodes of R if the host is as it was. -/
  place : NodeKey → Option NodeKey
  /-- The places of the nodes of R if another application came first. -/
  later : NodeKey → Option NodeKey

/-- **Nothing that one application has to do with nodes is touched by another**,
and the places it finds after the other one are those it finds in the host, renumbered. -/
structure Footprint.Apart (σ : Equiv.Perm NodeKey) (p q : Footprint) : Prop where
  gone_subset : p.gone ⊆ p.images
  disjoint : ∀ node ∈ p.images, node ∉ q.gone
  kept : ∀ m node, p.place m = some node → node ∉ q.gone
  fixes : ∀ node ∈ p.images, σ node = node
  later : ∀ m, p.later m = (p.place m).map σ

variable [Connected α]

/-- An element with the nodes it refers to renumbered. -/
def renumber (σ : Equiv.Perm NodeKey) (a : α) : α := mapNodes (fun node => some (σ node)) a

/-- Renumbering back undoes a renumbering. -/
theorem renumber_symm (σ : Equiv.Perm NodeKey) (a : α) : renumber σ (renumber σ.symm a) = a := by
  unfold renumber
  rw [mapNodes_mapNodes]
  refine mapNodes_eq_self fun node _ => ?_
  show some (σ (σ.symm node)) = some node
  rw [σ.apply_symm_apply]

/-- What is the same renumbered one way is the same renumbered the other way. -/
theorem map_renumber_eq_iff {σ : Equiv.Perm NodeKey} {a? b? : Option α} :
    a?.map (renumber σ.symm) = b? ↔ a? = b?.map (renumber σ) := by
  have hback : renumber σ ∘ renumber σ.symm = (id : α → α) := funext (renumber_symm σ)
  have hforth : renumber σ.symm ∘ renumber σ = (id : α → α) := funext (renumber_symm σ.symm)
  constructor
  · rintro rfl
    rw [Option.map_map, hback, Option.map_id_apply]
  · rintro rfl
    rw [Option.map_map, hforth, Option.map_id_apply]

/-- Nodes and names have nothing to do with each other. -/
@[simp] theorem renumber_renamed (σ : Equiv.Perm NodeKey) (a : α) (name : Name) :
    renumber σ (renamed a name) = renamed (renumber σ a) name :=
  mapNodes_renamed _ a name

/-- A renumbering that fixes the nodes of an element fixes the element. -/
theorem renumber_eq_self {σ : Equiv.Perm NodeKey} {a : α} (h : ∀ node ∈ nodesOf a, σ node = node) :
    renumber σ a = a :=
  mapNodes_eq_self fun node hnode => congrArg some (h node hnode)

/-- **An effect is local** if it lets what is no image be, apart from nodes that
go, and is natural in the nodes. -/
structure Effect.Local (e : Effect κ α) (p : Footprint) : Prop where
  other : ∀ place key a, key ∉ e.images → e.fate place key a = some (without p.gone a)
  map_fate : ∀ {f}, Spares f p.images → ∀ place key a, (e.fate place key a).map (mapNodes f)
    = e.fate (fun m => (place m).bind f) key (mapNodes f a)
  map_added : ∀ f place, (e.added place).map (mapNodes f) = e.added fun m => (place m).bind f

/-! ## Local effects commute

Each case is about one element: one that both applications leave alone, one that is an image for
either of them, and one that either of them adds. By `Footprint.Apart` there is no element that
is an image for both. -/

section

variable {e e' : Effect κ α} {p q : Footprint} {σ : Equiv.Perm NodeKey}

namespace Footprint.Apart

variable (h : p.Apart σ q)

include h

/-- Nodes that the other application deletes are no images of this one. -/
theorem spares_keep : Spares (keep q.gone) p.images := .of_keep h.disjoint

/-- The renumbering fixes the images of this one. -/
theorem spares_renumber : Spares (fun node => some (σ node)) p.images :=
  .of_perm σ.injective h.fixes

/-- The nodes of R are in no place that the other application deletes. -/
theorem place_bind_keep : (fun m => (p.place m).bind (keep q.gone)) = p.place := by
  funext m
  cases hm : p.place m with
  | none => rfl
  | some node => exact if_neg (h.kept m node hm)

/-- The places after the other application are the places before, renumbered. -/
theorem place_bind_renumber : (fun m => (p.place m).bind fun node => some (σ node)) = p.later := by
  funext m
  rw [h.later m, Option.map_eq_bind]
  rfl

end Footprint.Apart

namespace Effect.Local

variable (he : e.Local p) (h : p.Apart σ q)

include he h

/-- Nodes that the other application deletes can go before or after. -/
theorem fate_without (key : Key κ) (a : α) :
    (e.fate p.place key a).map (without q.gone) = e.fate p.place key (without q.gone a) := by
  show Option.map (mapNodes (keep q.gone)) _ = _
  rw [he.map_fate h.spares_keep, h.place_bind_keep]
  rfl

/-- What is done later is done renumbered. -/
theorem fate_renumber (key : Key κ) (a : α) :
    (e.fate p.place key a).map (renumber σ) = e.fate p.later key (renumber σ a) := by
  show Option.map (mapNodes fun node => some (σ node)) _ = _
  rw [he.map_fate h.spares_renumber, h.place_bind_renumber]
  rfl

/-- What is added does not refer to nodes that the other application deletes. -/
theorem added_without : (e.added p.place).map (without q.gone) = e.added p.place := by
  show List.map (mapNodes (keep q.gone)) _ = _
  rw [he.map_added, h.place_bind_keep]

/-- What is added later is what would have been added, renumbered. -/
theorem added_renumber : (e.added p.place).map (renumber σ) = e.added p.later := by
  show List.map (mapNodes fun node => some (σ node)) _ = _
  rw [he.map_added, h.place_bind_renumber]

end Effect.Local

namespace Effect

variable (he : e.Local p) (he' : e'.Local q) (h : p.Apart σ q)

include he he' h

/-- **Where the second application has no image, the order does not matter.** -/
theorem fates_comm (h' : q.Apart σ.symm p) {key : Key κ} (hkey : key ∉ e'.images)
    {a : α} (ha : ∀ node ∈ nodesOf a, σ node = node) :
    ((e.fate p.place key a).bind (e'.fate q.later key)).map (renumber σ)
      = (e'.fate q.place key a).bind (e.fate p.later key) := by
  have hother : ∀ place, e'.fate place key = fun b => some (without q.gone b) := fun place =>
    funext fun b => he'.other place key b hkey
  have hspares : Spares (fun node => some (σ node)) q.gone := .of_perm σ.injective
    fun node hnode => (σ.symm_apply_eq.1 (h'.fixes node (h'.gone_subset hnode))).symm
  calc ((e.fate p.place key a).bind (e'.fate q.later key)).map (renumber σ)
      = ((e.fate p.place key a).map (without q.gone)).map (renumber σ) := by
        rw [hother, Option.map_eq_bind (f := without q.gone)]
        rfl
    _ = e.fate p.later key (renumber σ (without q.gone a)) := by
        rw [he.fate_without h, he.fate_renumber h]
    _ = e.fate p.later key (without q.gone (renumber σ a)) := by
        unfold renumber
        rw [hspares.mapNodes_without]
    _ = (e'.fate q.place key a).bind (e.fate p.later key) := by
        rw [renumber_eq_self ha, hother, Option.bind_some]

/-- What the first application adds, the second one leaves as it is. It is found under the key
that it was given first. -/
theorem exists_of_added {r first second : Registry κ α}
    (hfirst : Registry.Rewritten r first (e.fate p.place) (e.added p.place))
    (hsecond : Registry.Rewritten first second (e'.fate q.later) (e'.added q.later))
    (hold : ∀ key ∈ e'.images, key.index < r.cells.length) {i : Nat} {a : α}
    (ha : (e.added p.place)[i]? = some a) :
    ∃ name, second.get? ⟨r.cells.length + i⟩ = some (renamed a name) := by
  obtain ⟨name, hname⟩ := hfirst.new i a ha
  have hnew : (⟨r.cells.length + i⟩ : Key κ) ∉ e'.images := fun hmem =>
    absurd (hold _ hmem) (Nat.not_lt.2 (Nat.le_add_right _ _))
  have hkept : without q.gone a = a := by
    have hmap := congrArg (·[i]?) (he.added_without h)
    simpa [ha] using hmap
  refine ⟨name, ?_⟩
  rw [hsecond.old _ (Registry.lt_of_get?_eq_some hname), hname, Option.bind_some,
    he'.other _ _ _ hnew]
  show some (mapNodes (keep q.gone) (renamed a name)) = _
  rw [mapNodes_renamed]
  exact congrArg (fun b => some (renamed b name)) hkept

end Effect

end

/-- **Local effects that are apart commute**, up to the keys and names of what they add. Neither
effect knows of the other: what is needed of the two is that their footprints are apart and that
they have no image of the kind in common. -/
theorem Effect.sameUpTo {e e' : Effect κ α} {p q : Footprint} {σ : Equiv.Perm NodeKey}
    (he : e.Local p) (he' : e'.Local q) (h : p.Apart σ q) (h' : q.Apart σ.symm p)
    (hdisjoint : ∀ key ∈ e.images, key ∉ e'.images) {r first second first' second' : Registry κ α}
    (hold : ∀ key ∈ e.images, key.index < r.cells.length)
    (hold' : ∀ key ∈ e'.images, key.index < r.cells.length)
    (hfixed : ∀ key a, r.get? key = some a → ∀ node ∈ nodesOf a, σ node = node)
    (hfirst : Registry.Rewritten r first (e.fate p.place) (e.added p.place))
    (hsecond : Registry.Rewritten first second (e'.fate q.later) (e'.added q.later))
    (hfirst' : Registry.Rewritten r first' (e'.fate q.place) (e'.added q.place))
    (hsecond' : Registry.Rewritten first' second' (e.fate p.later) (e.added p.later)) :
    Registry.SameUpTo r.cells.length
      (Key.exchange r.cells.length (e.added p.place).length (e'.added q.place).length)
      (renumber σ) second second' := by
  have hdisjoint' : ∀ key ∈ e'.images, key ∉ e.images := fun key hkey hmem =>
    hdisjoint key hmem hkey
  have hlater : (e.added p.later).length = (e.added p.place).length := by
    rw [← he.added_renumber h, List.length_map]
  have hlater' : (e'.added q.later).length = (e'.added q.place).length := by
    rw [← he'.added_renumber h', List.length_map]
  constructor
  · exact fun key hlt => Key.exchange_of_lt hlt
  -- an old key meets the fates of both effects, in either order
  · intro key hlt
    rw [hsecond'.old key (Nat.lt_of_lt_of_le hlt (hfirst'.length ▸ Nat.le_add_right _ _)),
      hsecond.old key (Nat.lt_of_lt_of_le hlt (hfirst.length ▸ Nat.le_add_right _ _)),
      hfirst.old key hlt, hfirst'.old key hlt, Option.bind_assoc, Option.bind_assoc,
      Option.map_bind]
    cases ha : r.get? key with
    | none => rfl
    | some a =>
      have ha := hfixed key a ha
      show (e'.fate q.place key a).bind _ = Option.map _ ((e.fate p.place key a).bind _)
      -- at most one of the two changes it, and that one may be taken for the first
      by_cases hkey : key ∈ e'.images
      · exact (map_renumber_eq_iff.1 (fates_comm he' he h' h (hdisjoint' key hkey) fun node hnode =>
          σ.symm_apply_eq.2 (ha node hnode).symm))
      · exact (fates_comm he he' h h' hkey ha).symm
  -- a new key lies in the block of one effect or of the other, or beyond both
  · intro key hle
    rcases Key.block_cases r.cells.length (e.added p.place).length (e'.added q.place).length key
      with hlt | ⟨i, hi, rfl⟩ | ⟨j, hj, rfl⟩ | hbeyond
    · exact absurd hlt (Nat.not_lt.2 hle)
    · obtain ⟨name, hname⟩ := exists_of_added he he' h hfirst hsecond hold'
        (List.getElem?_eq_getElem hi)
      obtain ⟨name', hname'⟩ := hsecond'.new i _ (by
        rw [← he.added_renumber h, List.getElem?_map, List.getElem?_eq_getElem hi]
        rfl)
      rw [hfirst'.length] at hname'
      simp [Key.exchange_first hi, hname, hname']
    · obtain ⟨name, hname⟩ := hsecond.new j _ (by
        rw [← he'.added_renumber h', List.getElem?_map, List.getElem?_eq_getElem hj]
        rfl)
      obtain ⟨name', hname'⟩ := exists_of_added he' he h' hfirst' hsecond' hold
        (List.getElem?_eq_getElem hj)
      rw [hfirst.length] at hname
      simp [Key.exchange_second hj, hname, hname', renumber_symm]
    · rw [Key.exchange_beyond hbeyond, hsecond.get?_of_le, hsecond'.get?_of_le]
      · rfl
      · rw [hfirst'.length, hlater]
        omega
      · rw [hfirst.length, hlater']
        omega

end

end GraphGrammar
