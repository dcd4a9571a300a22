import GraphGrammar.Proofs.Fate

/-!
# Replacing the nodes that elements refer to

Arcs refer to nodes by their ends and hyperarcs by their members. A partial map
of nodes replaces these references, or lets them go, and so does the deletion of
nodes (`without`): both are `mapNodes`.

What becomes of an element is *natural* in the nodes it refers to. Replacing
nodes first and bringing the element along then is the same as the other way
round, as long as the places of the nodes of R are replaced too, and the
replacement keeps nodes apart and leaves the images of the option alone
(`Spares`). This is what lets an application be compared with one in another
host, where added nodes have other keys and other nodes are gone.

This is used in two ways. Letting nodes go is a partial map, and with it an application is
compared with one that comes after a deletion. Renumbering is a total map, and with it an
application is compared with one in a host where other keys are taken.
-/

namespace GraphGrammar

open Attributed

/-! ## References to nodes

The class `Connected` is what arcs and hyperarcs have in common here, and nodes with them, as
they refer to nothing. With it a statement about two registries of one kind is one statement for
all kinds. -/

/-- A type of elements that refer to nodes. -/
class Connected (α : Type) [Attributed α] where
  /-- The nodes that an element refers to. -/
  nodesOf : α → List NodeKey
  /-- The element with each node replaced, or let go. -/
  mapNodes : (NodeKey → Option NodeKey) → α → α
  mapNodes_mapNodes : ∀ f g a, mapNodes g (mapNodes f a) = mapNodes (fun node => (f node).bind g) a
  mapNodes_eq_self : ∀ {f a}, (∀ node ∈ nodesOf a, f node = some node) → mapNodes f a = a
  mapNodes_withAttributes :
    ∀ f a t, mapNodes f (withAttributes a t) = withAttributes (mapNodes f a) t
  attributes_mapNodes : ∀ f a, attributes (mapNodes f a) = attributes a

instance : Connected Node where
  nodesOf _ := []
  mapNodes _ node := node
  mapNodes_mapNodes _ _ _ := rfl
  mapNodes_eq_self _ := rfl
  mapNodes_withAttributes _ _ _ := rfl
  attributes_mapNodes _ _ := rfl

/-- Replacing twice is replacing once, by both maps in turn. -/
theorem Arc.mapEnds_mapEnds (f g : NodeKey → Option NodeKey) (arc : Arc) :
    (arc.mapEnds f).mapEnds g = arc.mapEnds fun node => (f node).bind g := by
  unfold Arc.mapEnds
  simp only [Option.bind_assoc]

instance : Connected Arc where
  nodesOf := Arc.ends
  mapNodes f arc := arc.mapEnds f
  mapNodes_mapNodes := Arc.mapEnds_mapEnds
  mapNodes_eq_self := Arc.mapEnds_eq_self
  mapNodes_withAttributes _ _ _ := rfl
  attributes_mapNodes _ _ := rfl

/-- The same for members. -/
theorem HyperArc.mapMembers_mapMembers (f g : NodeKey → Option NodeKey) (hyperarc : HyperArc) :
    (hyperarc.mapMembers f).mapMembers g = hyperarc.mapMembers fun node => (f node).bind g := by
  unfold HyperArc.mapMembers
  simp only [List.filterMap_filterMap]

instance : Connected HyperArc where
  nodesOf := HyperArc.members
  mapNodes f hyperarc := hyperarc.mapMembers f
  mapNodes_mapNodes := HyperArc.mapMembers_mapMembers
  mapNodes_eq_self := HyperArc.mapMembers_eq_self
  mapNodes_withAttributes _ _ _ := rfl
  attributes_mapNodes _ _ := rfl

open Connected

section

variable {α : Type} [Attributed α] [Connected α]

/-- The name of an element is no reference. -/
@[simp] theorem mapNodes_renamed (f : NodeKey → Option NodeKey) (a : α) (name : Name) :
    mapNodes f (renamed a name) = renamed (mapNodes f a) name := by
  unfold renamed
  rw [mapNodes_withAttributes, attributes_mapNodes]

/-- Attributes move along whatever the nodes are. -/
theorem mapNodes_moveAlong (f : NodeKey → Option NodeKey) (a before after : α) :
    mapNodes f (Attributed.moveAlong a before after)
      = Attributed.moveAlong (mapNodes f a) before after := by
  unfold Attributed.moveAlong
  rw [mapNodes_withAttributes, attributes_mapNodes]

/-! ## Nodes that go

A deletion was described with `Arc.without` and `HyperArc.without`. As a replacement of nodes it
is `keep`, which sends a node to itself or to nothing. -/

/-- Lets go of some nodes and leaves the others. -/
def keep (gone : List NodeKey) (node : NodeKey) : Option NodeKey :=
  if node ∈ gone then none else some node

/-- The element without some nodes. -/
def without (gone : List NodeKey) (a : α) : α := mapNodes (keep gone) a

/-- To keep a node is to guard it by a test. -/
theorem keep_eq_guard (gone : List NodeKey) : keep gone = Option.guard (!gone.contains ·) := by
  funext node
  by_cases h : node ∈ gone <;> simp [keep, Option.guard, h]

/-- For arcs, going without some nodes is keeping the others. -/
theorem Arc.without_eq (gone : List NodeKey) (arc : Arc) :
    arc.without gone = GraphGrammar.without gone arc := by
  have hend : ∀ e : Option NodeKey, e.filter (!gone.contains ·) = e.bind (keep gone) := by
    intro e
    rw [keep_eq_guard]
    cases e with
    | none => rfl
    | some node => simp [Option.filter, Option.guard]
  show _ = arc.mapEnds (keep gone)
  unfold Arc.without Arc.mapEnds
  rw [hend, hend]

/-- For hyperarcs, going without some nodes is keeping the others. -/
theorem HyperArc.without_eq (gone : List NodeKey) (hyperarc : HyperArc) :
    hyperarc.without gone = GraphGrammar.without gone hyperarc := by
  show _ = hyperarc.mapMembers (keep gone)
  unfold HyperArc.without HyperArc.mapMembers
  rw [keep_eq_guard, List.filterMap_eq_filter]

/-! ## Replacements that spare some nodes

A replacement must not move another node onto an image, or bring two members of a hyperarc
together. `Spares` is this condition, for a list of nodes that are to be left in peace. -/

/-- **A replacement of nodes spares some of them** if it leaves these where they
are and keeps all nodes apart that it does not let go. -/
structure Spares (f : NodeKey → Option NodeKey) (nodes : List NodeKey) : Prop where
  apart : ∀ {m n node}, f m = some node → f n = some node → m = n
  fixes : ∀ node ∈ nodes, f node = some node

namespace Spares

variable {f : NodeKey → Option NodeKey} {nodes gone : List NodeKey}

/-- What spares some nodes spares fewer. -/
theorem mono (h : Spares f nodes) (hsub : gone ⊆ nodes) : Spares f gone :=
  ⟨h.apart, fun node hnode => h.fixes node (hsub hnode)⟩

/-- Letting nodes go spares the others. -/
theorem of_keep (h : ∀ node ∈ nodes, node ∉ gone) : Spares (keep gone) nodes where
  apart := by
    intro m n node hm hn
    unfold keep at hm hn
    split at hm
    · exact nomatch hm
    · split at hn
      · exact nomatch hn
      · exact (Option.some.inj hm).trans (Option.some.inj hn).symm
  fixes node hnode := if_neg (h node hnode)

/-- A renumbering of all nodes spares those it fixes. -/
theorem of_perm {σ : NodeKey → NodeKey} (hσ : Function.Injective σ)
    (h : ∀ node ∈ nodes, σ node = node) : Spares (fun node => some (σ node)) nodes where
  apart hm hn := hσ (Option.some.inj (hm.trans hn.symm))
  fixes node hnode := congrArg some (h node hnode)

/-- A node is not moved onto one that is spared. -/
theorem notMem (h : Spares f nodes) {m node : NodeKey} (hm : f m = some node) (hnot : m ∉ nodes) :
    node ∉ nodes :=
  fun hmem => hnot (h.apart hm (h.fixes node hmem) ▸ hmem)

/-- Nodes that are spared can go before or after the replacement. -/
theorem bind_keep (h : Spares f gone) (node : NodeKey) :
    (f node).bind (keep gone) = (keep gone node).bind f := by
  by_cases hgone : node ∈ gone
  · simp [keep, hgone, h.fixes node hgone]
  · cases hf : f node with
    | none => simp [keep, hgone, hf]
    | some place => simp [keep, hgone, hf, h.notMem hf hgone]

/-- Nodes that are spared can go before or after the others are replaced. -/
theorem mapNodes_without (h : Spares f gone) (a : α) :
    mapNodes f (without gone a) = without gone (mapNodes f a) := by
  unfold without
  rw [mapNodes_mapNodes, mapNodes_mapNodes]
  simp only [h.bind_keep]

end Spares

end

/-! ## What is brought to R

Each step of bringing an element to R reads the places of the nodes of R and the ends or members
that are there. If both are replaced, so is the outcome. -/

namespace Update

variable {rule : GrammarRule} {o : RuleOption} {place f : NodeKey → Option NodeKey}

/-- One end is reconnected whatever the nodes are. -/
theorem mapEnds_reconnectedArc (before after : Arc) (backToFront : Bool) (arc : Arc) (e : ArcEnd) :
    (reconnectedArc rule place before after backToFront arc e).mapEnds f
      = reconnectedArc rule (fun m => (place m).bind f) before after backToFront (arc.mapEnds f)
        e := by
  have hwithEnd : ∀ (side : ArcEnd) (node : Option NodeKey),
      (arc.withEnd side node).mapEnds f = (arc.mapEnds f).withEnd side (node.bind f) := by
    intro side node
    cases side <;> rfl
  unfold reconnectedArc
  split
  · rfl
  · rw [hwithEnd, Option.bind_assoc]

/-- Attributes are moved along whatever the ends are. -/
theorem mapEnds_moveAlong (arc before after : Arc) :
    (arc.moveAlong before after).mapEnds f = (arc.mapEnds f).moveAlong before after := by
  unfold Arc.moveAlong
  dsimp only
  split <;> rfl

/-- **An arc is brought to R whatever the nodes are.** -/
theorem mapEnds_broughtArc (before after : Arc) (backToFront : Bool) (arc : Arc) :
    (broughtArc rule place before after backToFront arc).mapEnds f
      = broughtArc rule (fun m => (place m).bind f) before after backToFront (arc.mapEnds f) := by
  have hturned : ∀ turn : Bool, (if turn then arc.turned else arc).mapEnds f
      = if turn then (arc.mapEnds f).turned else arc.mapEnds f := by
    intro turn
    cases turn <;> rfl
  unfold broughtArc ArcEnd.both
  dsimp only [List.foldl_cons, List.foldl_nil]
  rw [mapEnds_moveAlong, mapEnds_reconnectedArc, mapEnds_reconnectedArc, hturned]

variable {images : List NodeKey}

/-- Members that leave are images, so they are found again after the replacement. -/
theorem mapMembers_foldl_detach (hf : Spares f images) (nodes : List NodeKey)
    (hnodes : nodes ⊆ images) (hyperarc : HyperArc) :
    (nodes.foldl HyperArc.detach hyperarc).mapMembers f
      = nodes.foldl HyperArc.detach (hyperarc.mapMembers f) := by
  induction nodes generalizing hyperarc with
  | nil => rfl
  | cons node rest ih =>
    rw [List.cons_subset] at hnodes
    have hdetach : (hyperarc.detach node).mapMembers f = (hyperarc.mapMembers f).detach node := by
      have hone : Spares f [node] := hf.mono (by simpa using hnodes.1)
      rw [← HyperArc.without_singleton, ← HyperArc.without_singleton, HyperArc.without_eq,
        HyperArc.without_eq]
      exact hone.mapNodes_without hyperarc
    rw [List.foldl_cons, ih hnodes.2, hdetach]
    rfl

/-- Members that come are replaced as they come. A node that comes may be a member already, and
then its replacement is one too, since no other node is replaced by it. -/
theorem mapMembers_foldl_attach (hf : Spares f images) (nodes : List NodeKey)
    (hyperarc : HyperArc) :
    (nodes.foldl HyperArc.attach hyperarc).mapMembers f
      = (nodes.filterMap f).foldl HyperArc.attach (hyperarc.mapMembers f) := by
  induction nodes generalizing hyperarc with
  | nil => rfl
  | cons node rest ih =>
    rw [List.foldl_cons, ih]
    cases hnode : f node with
    | none =>
      rw [List.filterMap_cons_none hnode]
      congr 1
      unfold HyperArc.attach
      split
      · rfl
      · simp [HyperArc.mapMembers, hnode]
    | some place =>
      rw [List.filterMap_cons_some hnode, List.foldl_cons]
      congr 1
      -- the node is a member exactly if its replacement is one afterwards
      have hmem : (hyperarc.mapMembers f).contains place = hyperarc.contains node := by
        rw [Bool.eq_iff_iff, HyperArc.contains_iff, HyperArc.contains_iff]
        show place ∈ hyperarc.members.filterMap f ↔ _
        rw [List.mem_filterMap]
        exact ⟨fun ⟨m, hm, hplace⟩ => hf.apart hplace hnode ▸ hm, fun h => ⟨node, h, hnode⟩⟩
      unfold HyperArc.attach
      rw [hmem]
      split
      · rfl
      · simp [HyperArc.mapMembers, hnode]

/-- **A hyperarc is brought to R whatever the nodes are**, as long as the images
of the nodes of L are spared. -/
theorem mapMembers_broughtHyperArc (hf : Spares f o.nodeImages)
    (before after hyperarc : HyperArc) :
    (broughtHyperArc rule o place before after hyperarc).mapMembers f
      = broughtHyperArc rule o (fun m => (place m).bind f) before after
        (hyperarc.mapMembers f) := by
  have himages : (leavingMembers rule before after).filterMap o.node? ⊆ o.nodeImages := by
    intro node hnode
    obtain ⟨key, -, hkey⟩ := List.mem_filterMap.1 hnode
    exact Assignment.mem_nodeImages.2 ⟨key, hkey⟩
  unfold broughtHyperArc
  dsimp only
  refine (mapNodes_moveAlong f _ before after).trans ?_
  show Attributed.moveAlong (HyperArc.mapMembers (List.foldl HyperArc.attach _ _) f) _ _ = _
  rw [mapMembers_foldl_attach hf, mapMembers_foldl_detach hf _ himages, List.filterMap_filterMap]

end Update

/-! ## Fates

A fate takes an element, or makes the one change that is for it. Both are natural, and so a fate
is. -/

namespace Registry

variable {κ : Kind} {α : Type} {pairs : List (Key κ × α × α)} {image? : Key κ → Option (Key κ)}
  {g g' : Key κ → α → α → α → α} {m : α → α}

/-- Changes that are natural one by one are natural as a list. -/
theorem map_changeOf
    (h : ∀ key before after a, m (g key before after a) = g' key before after (m a))
    (key : Key κ) (a : α) : m (changeOf (changesOf pairs image? g) key a)
      = changeOf (changesOf pairs image? g') key (m a) := by
  induction pairs with
  | nil => rfl
  | cons pair rest ih =>
    obtain ⟨lKey, before, after⟩ := pair
    unfold changeOf changesOf at ih ⊢
    cases himage : image? lKey with
    | none => simpa [himage] using ih
    | some image =>
      by_cases hkey : key = image
      · simp [himage, hkey, h]
      · simpa [himage, List.lookup_cons, beq_false_of_ne hkey] using ih

/-- If each change is natural, the fate is. -/
theorem map_fate {gone : List (Key κ)}
    (h : ∀ key before after a, m (g key before after a) = g' key before after (m a))
    (key : Key κ) (a : α) :
    (fate gone (changesOf pairs image? g) key a).map m
      = fate gone (changesOf pairs image? g') key (m a) := by
  unfold fate
  split
  · rfl
  · exact congrArg some (map_changeOf h key a)

end Registry

namespace GrammarRule

variable {rule : GrammarRule} {o : RuleOption} {place f : NodeKey → Option NodeKey}

/-- **The fate of an arc does not depend on which nodes there are.** -/
theorem mapEnds_arcFate {reversed : List ArcKey} (hf : Spares f o.nodeImages) (key : ArcKey)
    (arc : Arc) :
    (rule.arcFate o place reversed key arc).map (·.mapEnds f)
      = rule.arcFate o (fun m => (place m).bind f) reversed key (arc.mapEnds f) := by
  have hgone : Spares f (rule.goneNodes o.toAssignment) := hf.mono (rule.goneNodes_subset _)
  have hwithout : (arc.without (rule.goneNodes o.toAssignment)).mapEnds f
      = (arc.mapEnds f).without (rule.goneNodes o.toAssignment) := by
    rw [Arc.without_eq, Arc.without_eq]
    exact hgone.mapNodes_without arc
  unfold arcFate
  rw [← hwithout]
  exact Registry.map_fate (m := fun arc : Arc => arc.mapEnds f)
    (fun _ before after arc => Update.mapEnds_broughtArc before after _ arc) key _

/-- **The fate of a hyperarc does not depend on which nodes there are.** -/
theorem mapMembers_hyperarcFate (hf : Spares f o.nodeImages) (key : HyperArcKey)
    (hyperarc : HyperArc) :
    (rule.hyperarcFate o place key hyperarc).map (·.mapMembers f)
      = rule.hyperarcFate o (fun m => (place m).bind f) key (hyperarc.mapMembers f) := by
  have hgone : Spares f (rule.goneNodes o.toAssignment) := hf.mono (rule.goneNodes_subset _)
  have hwithout : (hyperarc.without (rule.goneNodes o.toAssignment)).mapMembers f
      = (hyperarc.mapMembers f).without (rule.goneNodes o.toAssignment) := by
    rw [HyperArc.without_eq, HyperArc.without_eq]
    exact hgone.mapNodes_without hyperarc
  unfold hyperarcFate
  rw [← hwithout]
  exact Registry.map_fate (m := fun hyperarc : HyperArc => hyperarc.mapMembers f)
    (fun _ before after hyperarc => Update.mapMembers_broughtHyperArc hf before after hyperarc)
    key _

end GrammarRule

end GraphGrammar
