import GraphGrammar.Proofs.Degree
import GraphGrammar.Proofs.RelocatedFit
import Mathlib.Algebra.GroupWithZero.Nat
import Mathlib.Data.Set.Function

/-!
# Correspondences between graphs

Two graphs *correspond* if their nodes, arcs and hyperarcs can be paired off so that
the elements of a pair are alike: they have the same labels, flags and type tags, and
are connected to nodes that are paired as well (`Graph.Corresponds`). What the variables
of a pair have to do with each other is a parameter. With variables that are equal up to
a tolerance a correspondence is an isomorphism; with variables of which the second ones
may go on after the first ones have ended it is what a search for one graph in the other
can find.

Correspondences can be turned around and composed. They preserve everything that is
counted at a node (`Graph.Corresponds.degree_eq`). And if something cannot become less
under a correspondence, nor under one that leads back, it stays the same under either
(`Registry.Matched.measure_eq`), though the second one need not be the inverse of the
first.

The pairing is given as a function on keys and not as a bijection of elements. It is asked that
it takes live keys to live keys, injectively and onto, which is all that is needed, and the keys
of nothing may go anywhere. So a match of a rule, which is a list of images, is a pairing as it
stands, and so is a relocation.
-/

namespace GraphGrammar

open Attributed

/-! ## Registries

A pairing of one kind of elements, whatever "alike" means for it. -/

namespace Registry

variable {κ : Kind} {α : Type} {f g : Key κ → Key κ} {S T U : α → α → Prop}
  {r r' r'' : Registry κ α}

/-- The keys of the live elements. -/
def live (r : Registry κ α) : Set (Key κ) := {key | r.contains key = true}

/-- **The elements of two registries are paired off**, and the elements of a pair are
related. -/
structure Matched (f : Key κ → Key κ) (S : α → α → Prop) (r r' : Registry κ α) : Prop where
  bijOn : Set.BijOn f r.live r'.live
  same : ∀ key a b, r.get? key = some a → r'.get? (f key) = some b → S a b

/-- What is found is alive. -/
theorem mem_live_of_get? {key : Key κ} {a : α} (h : r.get? key = some a) : key ∈ r.live :=
  contains_iff.2 ⟨a, h⟩

namespace Matched

/-- An element has its pair on the other side, and the two are related. -/
theorem exists_same (h : Matched f S r r') {key : Key κ} {a : α} (ha : r.get? key = some a) :
    ∃ b, r'.get? (f key) = some b ∧ S a b := by
  obtain ⟨b, hb⟩ := contains_iff.1 (h.bijOn.mapsTo (mem_live_of_get? ha))
  exact ⟨b, hb, h.same key a b ha hb⟩

/-- Pairings are composed, and what is said of the pairs is composed with them. -/
theorem trans (h : Matched f S r r') (h' : Matched g T r' r'')
    (hU : ∀ a b c, S a b → T b c → U a c) : Matched (g ∘ f) U r r'' := by
  refine ⟨h'.bijOn.comp h.bijOn, fun key a c ha hc => ?_⟩
  obtain ⟨b, hb, hab⟩ := h.exists_same ha
  exact hU a b c hab (h'.same (f key) b c hb hc)

/-- The pairs the other way round. -/
theorem symm (h : Matched f S r r') (hinv : Set.InvOn g f r.live r'.live)
    (hT : ∀ key a b, r.get? key = some a → r'.get? (f key) = some b → S a b → T b a) :
    Matched g T r' r := by
  refine ⟨h.bijOn.symm hinv.symm, fun key b a hb ha => ?_⟩
  have hkey : f (g key) = key := hinv.2 (mem_live_of_get? hb)
  have hb' : r'.get? (f (g key)) = some b := hkey.symm ▸ hb
  exact hT (g key) a b ha hb' (h.same (g key) a b ha hb')

/-- A map that does not take two elements to one pairs all of them off, if there are no
more elements on the other side. -/
theorem of_injOn (hmaps : ∀ key a, r.get? key = some a → ∃ b, r'.get? (f key) = some b ∧ S a b)
    (hinj : Set.InjOn f r.live) (hlength : r'.keys.length ≤ r.keys.length) : Matched f S r r' := by
  have hlive : ∀ {s : Registry κ α} {key}, key ∈ s.live ↔ key ∈ s.keys :=
    fun {s key} => (mem_keys_iff (r := s)).symm
  have hmapsTo : Set.MapsTo f r.live r'.live := by
    intro key hkey
    obtain ⟨a, ha⟩ := contains_iff.1 hkey
    obtain ⟨b, hb, -⟩ := hmaps key a ha
    exact mem_live_of_get? hb
  have hnodup : (r.keys.map f).Nodup := r.nodup_keys.map_on fun a ha b hb heq =>
    hinj (hlive.2 ha) (hlive.2 hb) heq
  have hsubperm : (r.keys.map f).Subperm r'.keys := hnodup.subperm fun key hkey => by
    obtain ⟨source, hsource, rfl⟩ := List.mem_map.1 hkey
    exact hlive.1 (hmapsTo (hlive.2 hsource))
  have hperm := hsubperm.perm_of_length_le (by rwa [List.length_map])
  refine ⟨⟨hmapsTo, hinj, fun key hkey => ?_⟩, fun key a b ha hb => ?_⟩
  · obtain ⟨source, hsource, heq⟩ := List.mem_map.1 (hperm.mem_iff.2 (hlive.1 hkey))
    exact ⟨source, hlive.2 hsource, heq⟩
  · obtain ⟨b', hb', hab⟩ := hmaps key a ha
    cases hb.symm.trans hb'
    exact hab

/-! ### Counting

Pairings are made for counting. Sums over the elements of the one registry are compared with sums
over the elements of the other, pair by pair. -/

/-- The keys on the other side are those of the images, in some order. -/
theorem perm_keys (h : Matched f S r r') : (r.keys.map f).Perm r'.keys := by
  have hinj : ∀ a ∈ r.keys, ∀ b ∈ r.keys, f a = f b → a = b := fun a ha b hb heq =>
    h.bijOn.injOn (mem_keys_iff.1 ha) (mem_keys_iff.1 hb) heq
  refine (List.perm_ext_iff_of_nodup (r.nodup_keys.map_on hinj) r'.nodup_keys).2 fun key => ?_
  rw [List.mem_map, mem_keys_iff]
  constructor
  · rintro ⟨source, hsource, rfl⟩
    exact h.bijOn.mapsTo (mem_keys_iff.1 hsource)
  · intro hkey
    obtain ⟨source, hsource, rfl⟩ := h.bijOn.surjOn hkey
    exact ⟨source, mem_keys_iff.2 hsource, rfl⟩

theorem length_keys_eq (h : Matched f S r r') : r'.keys.length = r.keys.length := by
  rw [← h.perm_keys.length_eq, List.length_map]

/-- Indexed registries that are paired off count the same number of elements. -/
theorem count_eq [Attributed α] (h : Matched f S r r') (hr : Graph.Indexed r)
    (hr' : Graph.Indexed r') : r'.count = r.count := by
  rw [hr.count_eq, hr'.count_eq, h.length_keys_eq]

/-- A sum over the elements, taken over the keys. -/
theorem sum_elements (r : Registry κ α) (μ : α → Nat) :
    (r.elements.map μ).sum = (r.keys.map fun key => (r.get? key).elim 0 μ).sum := by
  rw [elements, keys, List.map_map, List.map_map]
  refine congrArg List.sum (List.map_congr_left fun entry hentry => ?_)
  show μ entry.2 = (r.get? entry.1).elim 0 μ
  rw [mem_entries_iff.1 hentry]
  rfl

/-- The sum over the other side, taken over the images. -/
theorem sum_elements_image (h : Matched f S r r') (μ : α → Nat) :
    (r'.elements.map μ).sum = (r.keys.map fun key => (r'.get? (f key)).elim 0 μ).sum := by
  rw [sum_elements, ← (h.perm_keys.map _).sum_eq, List.map_map]
  rfl

/-- What is the same for the elements of each pair is the same altogether. -/
theorem sum_eq (h : Matched f S r r') {μ ν : α → Nat}
    (hμ : ∀ key a b, r.get? key = some a → r'.get? (f key) = some b → S a b → μ a = ν b) :
    (r'.elements.map ν).sum = (r.elements.map μ).sum := by
  rw [h.sum_elements_image, sum_elements]
  refine congrArg List.sum (List.map_congr_left fun key hkey => ?_)
  obtain ⟨a, ha⟩ := contains_iff.1 (mem_keys_iff.1 hkey)
  obtain ⟨b, hb, hab⟩ := h.exists_same ha
  rw [ha, hb]
  exact (hμ key a b ha hb hab).symm

/-- **What does not become less for any pair does not become less altogether.** The converse is
false, and `measure_eq` is what can be had instead. -/
theorem sum_le (h : Matched f S r r') {μ : α → Nat} (hμ : ∀ a b, S a b → μ a ≤ μ b) :
    (r.elements.map μ).sum ≤ (r'.elements.map μ).sum := by
  rw [h.sum_elements_image, sum_elements]
  refine List.sum_le_sum fun key hkey => ?_
  obtain ⟨a, ha⟩ := contains_iff.1 (mem_keys_iff.1 hkey)
  obtain ⟨b, hb, hab⟩ := h.exists_same ha
  rw [ha, hb]
  exact hμ a b hab

/-- **What does not become less in either direction stays the same.** The pairs of the
second direction may be others: one that becomes more in the first direction makes the
sum over all elements more, and it cannot become less again on the way back. -/
theorem measure_eq (h : Matched f S r r') (h' : Matched g T r' r) {μ : α → Nat}
    (hS : ∀ a b, S a b → μ a ≤ μ b) (hT : ∀ b a, T b a → μ b ≤ μ a) {key : Key κ} {a b : α}
    (ha : r.get? key = some a) (hb : r'.get? (f key) = some b) : μ a = μ b := by
  refine Nat.le_antisymm (hS a b (h.same key a b ha hb)) (Nat.le_of_not_lt fun hlt => ?_)
  refine Nat.not_lt_of_le (h'.sum_le hT) ?_
  rw [h.sum_elements_image, sum_elements]
  refine List.sum_lt_sum _ _ (fun key hkey => ?_) ⟨key, mem_keys_iff.2 (mem_live_of_get? ha), ?_⟩
  · obtain ⟨a, ha⟩ := contains_iff.1 (mem_keys_iff.1 hkey)
    obtain ⟨b, hb, hab⟩ := h.exists_same ha
    rw [ha, hb]
    exact hS a b hab
  · rw [ha, hb]
    exact hlt

end Matched

end Registry

/-! ## Elements that are alike

What is left open is how the variables of a pair are related. For a match by the strictest
conditions they extend each other, for equivalent graphs they are close, and for a graph in other
slots they are the same. -/

section

variable (V : List Float → List Float → Prop) (f : NodeKey → NodeKey)

/-- The same labels, and variables that are related. Which lists of variables count as related is
a parameter: a condition compares them in one way, an isomorphism in another. -/
structure Attributes.Alike (x y : Attributes) : Prop where
  labels : ∀ label, label ∈ x.labels.toList ↔ label ∈ y.labels.toList
  values : V x.values y.values

/-- Nodes with the same type tag besides. -/
structure Node.Alike (x y : Node) : Prop extends
    Attributes.Alike V x.toAttributes y.toAttributes where
  typeTag : y.typeTag = x.typeTag

/-- Arcs with the same flags besides, of which the second joins the nodes paired with
those of the first. It may do so the other way round unless they are oriented. -/
structure Arc.Alike (x y : Arc) : Prop extends
    Attributes.Alike V x.toAttributes y.toAttributes where
  directed : y.directed = x.directed
  doublyDirected : y.doublyDirected = x.doublyDirected
  ends : (y.source = x.source.map f ∧ y.target = x.target.map f) ∨
    (x.isOriented = false ∧ y.source = x.target.map f ∧ y.target = x.source.map f)

/-- Hyperarcs of which the second has the nodes paired with the members of the first as
its members. -/
structure HyperArc.Alike (x y : HyperArc) : Prop extends
    Attributes.Alike V x.toAttributes y.toAttributes where
  members : ∀ node, node ∈ y.members ↔ node ∈ x.members.map f

end

/-- **Two graphs correspond** under a pairing of their nodes, arcs and hyperarcs. Each kind is
matched one to one, and ends and members follow the pairing of nodes. -/
structure Graph.Corresponds (V : List Float → List Float → Prop)
    (f : (κ : Kind) → Key κ → Key κ) (a b : Graph) : Prop where
  nodes : a.nodes.Matched (f .node) (Node.Alike V) b.nodes
  arcs : a.arcs.Matched (f .arc) (Arc.Alike V (f .node)) b.arcs
  hyperarcs : a.hyperarcs.Matched (f .hyperarc) (HyperArc.Alike V (f .node)) b.hyperarcs

/-- The attributes of all elements. -/
def Graph.allAttributes (g : Graph) : List Attributes :=
  g.nodes.elements.map (·.toAttributes) ++ g.arcs.elements.map (·.toAttributes)
    ++ g.hyperarcs.elements.map (·.toAttributes)

namespace Graph

variable {a b c : Graph} {V W X : List Float → List Float → Prop}
  {f g : (κ : Kind) → Key κ → Key κ}

/-- What is asked of the attributes of all elements is asked of the node. -/
theorem mem_allAttributes_of_node? {key : NodeKey} {x : Node} (h : a.node? key = some x) :
    x.toAttributes ∈ a.allAttributes :=
  List.mem_append_left _ (List.mem_append_left _
    (List.mem_map_of_mem (Registry.mem_elements_iff.2 ⟨key, h⟩)))

theorem mem_allAttributes_of_arc? {key : ArcKey} {x : Arc} (h : a.arc? key = some x) :
    x.toAttributes ∈ a.allAttributes :=
  List.mem_append_left _ (List.mem_append_right _
    (List.mem_map_of_mem (Registry.mem_elements_iff.2 ⟨key, h⟩)))

theorem mem_allAttributes_of_hyperarc? {key : HyperArcKey} {x : HyperArc}
    (h : a.hyperarc? key = some x) : x.toAttributes ∈ a.allAttributes :=
  List.mem_append_right _ (List.mem_map_of_mem (Registry.mem_elements_iff.2 ⟨key, h⟩))

/-! ## Composing and turning around

What a correspondence says of the variables is a parameter, so composing two of them takes a
third relation that follows from the two, and turning one around takes one that follows from it. -/

/-- Nodes at an end that are taken there and back stay where they are. -/
theorem map_map_of_cancel {f g : NodeKey → NodeKey} {e : Option NodeKey}
    (h : ∀ node, e = some node → g (f node) = node) : (e.map f).map g = e := by
  cases e with
  | none => rfl
  | some node => exact congrArg some (h node rfl)

/-- Takes keys back to those of the elements they come from. -/
noncomputable def takeBack (a : Graph) (f : (κ : Kind) → Key κ → Key κ) :
    (κ : Kind) → Key κ → Key κ
  | .node => Function.invFunOn (f .node) a.nodes.live
  | .arc => Function.invFunOn (f .arc) a.arcs.live
  | .hyperarc => Function.invFunOn (f .hyperarc) a.hyperarcs.live

namespace Corresponds

/-- Correspondences are composed. What is known of the variables along the way has to be put
together. Two arcs that lie back to front in both steps lie along each other in the composite,
and then neither is oriented. -/
theorem trans (h : a.Corresponds V f b) (h' : b.Corresponds W g c)
    (hX : ∀ v w x, V v w → W w x → X v x) :
    a.Corresponds X (fun κ => g κ ∘ f κ) c := by
  have halike : ∀ {x y z : Attributes}, x.Alike V y → y.Alike W z → x.Alike X z := fun hxy hyz =>
    ⟨fun label => (hxy.labels label).trans (hyz.labels label), hX _ _ _ hxy.values hyz.values⟩
  refine ⟨h.nodes.trans h'.nodes fun x y z hxy hyz => ⟨halike hxy.toAlike hyz.toAlike, ?_⟩,
    h.arcs.trans h'.arcs fun x y z hxy hyz => ⟨halike hxy.toAlike hyz.toAlike, ?_, ?_, ?_⟩,
    h.hyperarcs.trans h'.hyperarcs fun x y z hxy hyz => ⟨halike hxy.toAlike hyz.toAlike, ?_⟩⟩
  · exact hyz.typeTag.trans hxy.typeTag
  · exact hyz.directed.trans hxy.directed
  · exact hyz.doublyDirected.trans hxy.doublyDirected
  · have horiented : y.isOriented = x.isOriented := by
      rw [Arc.isOriented, hxy.directed, hxy.doublyDirected, Arc.isOriented]
    simp only [← Option.map_map]
    rcases hxy.ends with ⟨hs, ht⟩ | ⟨hfree, hs, ht⟩
    · rw [← hs, ← ht, ← horiented]
      exact hyz.ends
    · rw [← hs, ← ht, and_iff_right hfree]
      rcases hyz.ends with ⟨hs', ht'⟩ | ⟨-, hs', ht'⟩
      · exact .inr ⟨hs', ht'⟩
      · exact .inl ⟨hs', ht'⟩
  · intro node
    rw [hyz.members, List.mem_map, List.mem_map]
    constructor
    · rintro ⟨m, hm, rfl⟩
      obtain ⟨n, hn, rfl⟩ := List.mem_map.1 ((hxy.members m).1 hm)
      exact ⟨n, hn, rfl⟩
    · rintro ⟨n, hn, rfl⟩
      exact ⟨f .node n, (hxy.members _).2 (List.mem_map_of_mem hn), rfl⟩

/-- **A correspondence can be turned around**, as can what it says of the variables. The way back
is the inverse of the pairing on live keys. References are to live nodes, so they are taken back
as well. -/
theorem symm (h : a.Corresponds V f b) (ha : a.WellFormed)
    (hW : ∀ x ∈ a.allAttributes, ∀ y ∈ b.allAttributes, V x.values y.values →
      W y.values x.values) : ∃ g, b.Corresponds W g a := by
  have hnodes : Set.InvOn (a.takeBack f .node) (f .node) a.nodes.live b.nodes.live :=
    h.nodes.bijOn.invOn_invFunOn
  have halike : ∀ {x y : Attributes}, x ∈ a.allAttributes → y ∈ b.allAttributes →
      x.Alike V y → y.Alike W x := fun hx hy hxy =>
    ⟨fun label => (hxy.labels label).symm, hW _ hx _ hy hxy.values⟩
  refine ⟨a.takeBack f, h.nodes.symm hnodes fun key x y hx hy hxy => ?_,
    h.arcs.symm h.arcs.bijOn.invOn_invFunOn fun key x y hx hy hxy => ?_,
    h.hyperarcs.symm h.hyperarcs.bijOn.invOn_invFunOn fun key x y hx hy hxy => ?_⟩
  · exact ⟨halike (mem_allAttributes_of_node? hx) (mem_allAttributes_of_node? hy) hxy.toAlike,
      hxy.typeTag.symm⟩
  -- ends are at live nodes, and on these the pairing is undone by going back
  · have hback : ∀ e, ((x.atEnd e).map (f .node)).map (a.takeBack f .node) = x.atEnd e := fun e =>
      map_map_of_cancel fun node hnode =>
        hnodes.1 (ha.ends_alive key x hx node (Arc.mem_ends_iff_atEnd.2 ⟨e, hnode⟩))
    refine ⟨halike (mem_allAttributes_of_arc? hx) (mem_allAttributes_of_arc? hy) hxy.toAlike,
      hxy.directed.symm, hxy.doublyDirected.symm, ?_⟩
    rcases hxy.ends with ⟨hs, ht⟩ | ⟨hfree, hs, ht⟩
    · rw [hs, ht]
      exact .inl ⟨(hback .source).symm, (hback .target).symm⟩
    · have horiented : y.isOriented = false := by
        rw [Arc.isOriented, hxy.directed, hxy.doublyDirected]
        exact hfree
      rw [hs, ht]
      exact .inr ⟨horiented, (hback .source).symm, (hback .target).symm⟩
  · refine ⟨halike (mem_allAttributes_of_hyperarc? hx) (mem_allAttributes_of_hyperarc? hy)
      hxy.toAlike, fun node => ?_⟩
    have hback : ∀ n ∈ x.members, a.takeBack f .node (f .node n) = n := fun n hn =>
      hnodes.1 (ha.members_alive key x hx n hn)
    rw [List.mem_map]
    constructor
    · exact fun hn => ⟨f .node node, (hxy.members _).2 (List.mem_map_of_mem hn), hback node hn⟩
    · rintro ⟨m, hm, rfl⟩
      obtain ⟨n, hn, rfl⟩ := List.mem_map.1 ((hxy.members m).1 hm)
      rw [hback n hn]
      exact hn

/-- What is known of the variables of each pair may be put in other words. -/
theorem mono (h : a.Corresponds V f b)
    (hnodes : ∀ key x y, a.node? key = some x → b.node? (f .node key) = some y →
      V x.values y.values → W x.values y.values)
    (harcs : ∀ key x y, a.arc? key = some x → b.arc? (f .arc key) = some y →
      V x.values y.values → W x.values y.values)
    (hhyperarcs : ∀ key x y, a.hyperarc? key = some x → b.hyperarc? (f .hyperarc key) = some y →
      V x.values y.values → W x.values y.values) : a.Corresponds W f b where
  nodes := ⟨h.nodes.bijOn, fun key x y hx hy =>
    have hxy := h.nodes.same key x y hx hy
    { hxy with values := hnodes key x y hx hy hxy.values }⟩
  arcs := ⟨h.arcs.bijOn, fun key x y hx hy =>
    have hxy := h.arcs.same key x y hx hy
    { hxy with values := harcs key x y hx hy hxy.values }⟩
  hyperarcs := ⟨h.hyperarcs.bijOn, fun key x y hx hy =>
    have hxy := h.hyperarcs.same key x y hx hy
    { hxy with values := hhyperarcs key x y hx hy hxy.values }⟩

/-! ## What is counted at a node

The degree is the one thing that the search compares and a correspondence does not mention. It is
a sum over arcs and hyperarcs, and the summands are equal one by one. -/

/-- An end is at the image of a node if it was at the node. Injectivity is needed for live nodes
only, as ends are at these. -/
theorem map_eq_some_image_iff (h : a.Corresponds V f b) {e : Option NodeKey} {n : NodeKey}
    (hn : n ∈ a.nodes.live) (he : ∀ m, e = some m → m ∈ a.nodes.live) :
    e.map (f .node) = some (f .node n) ↔ e = some n := by
  constructor
  · intro heq
    obtain ⟨m, hm, hmn⟩ := Option.map_eq_some_iff.1 heq
    rw [hm, h.nodes.bijOn.injOn (he m hm) hn hmn]
  · rintro rfl
    rfl

/-- An arc has as many ends at a node as the arc paired with it has at the node's pair, even if
the two lie opposite ways. -/
theorem count_ends_eq (h : a.Corresponds V f b) (ha : a.WellFormed) {n : NodeKey}
    (hn : n ∈ a.nodes.live) {key : ArcKey} {x y : Arc} (hx : a.arc? key = some x)
    (hxy : x.Alike V (f .node) y) : x.ends.count n = y.ends.count (f .node n) := by
  have hend : ∀ e, (x.atEnd e).map (f .node) = some (f .node n) ↔ x.atEnd e = some n := fun e =>
    h.map_eq_some_image_iff hn fun m hm =>
      ha.ends_alive key x hx m (Arc.mem_ends_iff_atEnd.2 ⟨e, hm⟩)
  have hsource : x.source.map (f .node) = some (f .node n) ↔ x.source = some n := hend .source
  have htarget : x.target.map (f .node) = some (f .node n) ↔ x.target = some n := hend .target
  rw [Arc.count_ends, Arc.count_ends]
  rcases hxy.ends with ⟨hs, ht⟩ | ⟨-, hs, ht⟩
  · simp only [hs, ht, hsource, htarget]
  · simp only [hs, ht, hsource, htarget]
    exact Nat.add_comm ..

/-- A hyperarc has a node among its members as often as its pair has; in well-formed graphs this
is at most once. -/
theorem count_members_eq (h : a.Corresponds V f b) (ha : a.WellFormed) (hb : b.WellFormed)
    {n : NodeKey} (hn : n ∈ a.nodes.live) {key other : HyperArcKey} {x y : HyperArc}
    (hx : a.hyperarc? key = some x) (hy : b.hyperarc? other = some y)
    (hxy : x.Alike V (f .node) y) : x.members.count n = y.members.count (f .node n) := by
  have hmem : f .node n ∈ y.members ↔ n ∈ x.members := by
    rw [hxy.members, List.mem_map]
    constructor
    · rintro ⟨m, hm, hmn⟩
      exact h.nodes.bijOn.injOn (ha.members_alive key x hx m hm) hn hmn ▸ hm
    · exact fun hn => ⟨n, hn, rfl⟩
  rw [(ha.members_distinct key x hx).count, (hb.members_distinct other y hy).count]
  simp only [hmem]

end Corresponds

/-- The degree of a node, summed up over the arcs and hyperarcs. -/
theorem degree_eq_sum (ha : a.WellFormed) (n : NodeKey) :
    a.degree n = (a.arcs.elements.map fun arc => arc.ends.count n).sum
      + (a.hyperarcs.elements.map fun hyperarc => hyperarc.members.count n).sum := by
  have hdistinct : ∀ hyperarc ∈ a.hyperarcs.elements, hyperarc.members.Nodup := by
    intro hyperarc hmem
    obtain ⟨key, hkey⟩ := Registry.mem_elements_iff.1 hmem
    exact ha.members_distinct key hyperarc hkey
  have hhyperarcs : (a.hyperarcsOf n).length
      = (a.hyperarcs.elements.flatMap HyperArc.members).count n := by
    rw [Adjacency.count_members hdistinct, hyperarcsOf, List.length_map,
      ← List.countP_eq_length_filter, Registry.elements, List.countP_map]
    rfl
  rw [degree, hhyperarcs, List.count_flatMap, List.count_flatMap]
  rfl

/-- **A node and the node paired with it have the same degree.** -/
theorem Corresponds.degree_eq (h : a.Corresponds V f b) (ha : a.WellFormed) (hb : b.WellFormed)
    {n : NodeKey} (hn : a.hasNode n = true) : b.degree (f .node n) = a.degree n := by
  rw [degree_eq_sum ha, degree_eq_sum hb,
    h.arcs.sum_eq fun key x y hx _ hxy => h.count_ends_eq ha hn hx hxy,
    h.hyperarcs.sum_eq fun key x y hx hy hxy => h.count_members_eq ha hb hn hx hy hxy]

/-! ## Graphs in other slots -/

/-- A graph corresponds to the graph in other slots, with the same variables. A relocation takes
elements along with their references, so every element and its counterpart agree in all that a
correspondence compares. -/
theorem Relocated.corresponds {σ : Relocation} (h : a.Relocated σ b) :
    a.Corresponds Eq σ.keys b := by
  have hbijOn : ∀ {κ : Kind} {α : Type} [Attributed α] [Connected α] {r r' : Registry κ α},
      r.Relocated σ r' → Set.BijOn (σ.keys κ) r.live r'.live := by
    intro κ α _ _ r r' hr
    refine ⟨fun key hkey => (hr.contains key).trans hkey, σ.key_injective.injOn, fun key hkey => ?_⟩
    obtain ⟨x, hx⟩ := Registry.contains_iff.1 hkey
    obtain ⟨source, rfl⟩ := hr.covers key x hx
    exact ⟨source, (hr.contains source).symm.trans hkey, rfl⟩
  have hmoved : ∀ {κ : Kind} {α : Type} [Attributed α] [Connected α] {r r' : Registry κ α},
      r.Relocated σ r' → ∀ {key x y}, r.get? key = some x → r'.get? (σ.key key) = some y →
      y = σ.move x := by
    intro κ α _ _ r r' hr key x y hx hy
    rw [hr.finds, hx] at hy
    exact (Option.some.inj hy).symm
  refine ⟨⟨hbijOn h.nodes, fun key x y hx hy => ?_⟩, ⟨hbijOn h.arcs, fun key x y hx hy => ?_⟩,
    ⟨hbijOn h.hyperarcs, fun key x y hx hy => ?_⟩⟩
  · rw [hmoved h.nodes hx hy]
    exact ⟨⟨fun _ => Iff.rfl, rfl⟩, rfl⟩
  · rw [hmoved h.arcs hx hy]
    exact ⟨⟨fun _ => Iff.rfl, rfl⟩, rfl, rfl, .inl ⟨σ.source_move x, σ.target_move x⟩⟩
  · rw [hmoved h.hyperarcs hx hy]
    refine ⟨⟨fun _ => Iff.rfl, rfl⟩, fun node => ?_⟩
    rw [σ.members_move]
    rfl

end Graph

end GraphGrammar
