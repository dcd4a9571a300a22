import GraphGrammar.Proofs.Confluence
import GraphGrammar.Proofs.Orientation
import GraphGrammar.Proofs.Staleness

/-!
# A rule whose sides are the same

A rule that has L for R as well, and derives its context, has nothing to do: each element of L
is its own counterpart (`GrammarRule.Idle`), so nothing is deleted and nothing is added, and
moving attributes along from an element to itself is leaving them alone.

There is one thing that is done nonetheless. An image that lies back to front is turned
around if R orients its arc, and whether L orients it as well is not asked. An arc of L with an
orientation lies back to front where its image points both ways, so such an image is turned, and
comes to begin where it ended (`apply_alike`, `turned_twoWay`). Everything else of the host is
as it was, except that ordered global labels are written anew, which a set of labels without
repeats does not notice.

The turn is reconnection as it is meant for every arc that R orients: afterwards the arc begins
at the image of the node at which it begins in R. Of an arc that points both ways it changes
which end is called the source, and nothing else.
-/

namespace GraphGrammar

open Attributed

variable {host : Graph} {rule : GrammarRule} {o : RuleOption}

/-! ## Elements that are their own counterparts

That the sides are the same is a condition on the draft. What the application relies on is that
each element is paired with itself, which follows because a derived context has all that the
sides share. -/

/-- The variables of a graph compare equal to themselves, as they do if all are numbers. A value
that is no number is written again, since it counts as changed. -/
structure Graph.EqualsItself (g : Graph) : Prop where
  nodes : ∀ node ∈ g.nodes.elements, (node.values == node.values) = true
  arcs : ∀ arc ∈ g.arcs.elements, (arc.values == arc.values) = true
  hyperarcs : ∀ hyperarc ∈ g.hyperarcs.elements, (hyperarc.values == hyperarc.values) = true
  globals : (g.globalVariables == g.globalVariables) = true

/-- A correspondence in which each element of a registry is its own counterpart. The element is
looked up from either side. -/
def Correspondence.Fixes {κ : Kind} {α : Type} (c : Correspondence (Key κ) (Key κ))
    (l : Registry κ α) : Prop :=
  ∀ key a, l.get? key = some a → c.right? key = some key ∧ c.left? key = some key

/-- **A rule that has nothing to do**: its sides are the same, and each element of L is its own
counterpart. -/
structure GrammarRule.Idle (rule : GrammarRule) : Prop where
  same : rule.r = rule.l
  nodes : rule.contextNodes.Fixes rule.l.nodes
  arcs : rule.contextArcs.Fixes rule.l.arcs
  hyperarcs : rule.contextHyperArcs.Fixes rule.l.hyperarcs

section Fixes

variable {κ : Kind} {α : Type} {l : Registry κ α} {c : Correspondence (Key κ) (Key κ)}

/-- If the context names everything that a side has, pairing the side with itself pairs each
element with itself. -/
theorem Pairs.fixes [Attributed α] {named : Name → Prop} (h : Pairs l l named c)
    (hl : Graph.Indexed l) (hnamed : ∀ name, l.names.contains name = true → named name) :
    c.Fixes l := by
  intro key a ha
  have hfind := hl.find?_eq_some ha
  have hright : c.right? key = some key := (h.right?_iff key key).2
    ⟨nameOf a, hnamed _ (NameMap.contains_iff.2 ⟨key, hfind⟩), hfind, hfind⟩
  exact ⟨hright, (h.left?_iff key key).2 hright⟩

namespace Correspondence.Fixes

variable (h : c.Fixes l)

include h

/-- A pair has one element twice. -/
theorem eq_of_mem_pairsOf {key : Key κ} {before after : α}
    (hpair : (key, before, after) ∈ pairsOf l l c) : l.get? key = some before ∧ after = before := by
  obtain ⟨hbefore, rKey, hright, hafter⟩ := mem_pairsOf.1 hpair
  cases (h key before hbefore).1.symm.trans hright
  exact ⟨hbefore, Option.some.inj (hafter.symm.trans hbefore)⟩

/-- The pairs are the elements of L, each with itself. -/
theorem pairsOf_eq : pairsOf l l c = l.entries.map fun entry => (entry.1, entry.2, entry.2) := by
  unfold pairsOf
  rw [← List.filterMap_eq_map]
  refine List.filterMap_congr fun entry hentry => ?_
  have hget := Registry.mem_entries_iff.1 hentry
  dsimp only
  rw [(h _ _ hget).1, Option.bind_some, hget]
  rfl

/-- Nothing of L is outside the context, so nothing goes. -/
theorem filter_right?_isNone : (l.keys.filter fun key => (c.right? key).isNone) = [] := by
  refine List.filter_eq_nil_iff.2 fun key hkey => ?_
  obtain ⟨a, ha⟩ := Registry.contains_iff.1 (Registry.mem_keys_iff.1 hkey)
  rw [(h key a ha).1]
  exact Bool.false_ne_true

/-- Nothing of R is outside the context, so nothing comes. -/
theorem filter_left?_isNone :
    (l.entries.filter fun entry => (c.left? entry.1).isNone) = [] := by
  refine List.filter_eq_nil_iff.2 fun entry hentry => ?_
  rw [(h _ _ (Registry.mem_entries_iff.1 hentry)).2]
  exact Bool.false_ne_true

end Correspondence.Fixes

end Fixes

/-- **A rule whose sides are the same is idle**, if its context was derived. -/
theorem RuleDraft.idle_of_build {draft : RuleDraft} (hdraft : draft.MembersDistinct)
    (hbuild : draft.build = .ok rule) (hderived : draft.k = none) (hsame : rule.r = rule.l) :
    rule.Idle := by
  have hrule := (coherent_of_build hdraft hbuild).1
  have hcontext := (assembles_of_build hbuild).context
  rw [hderived, hsame] at hcontext
  have hk : rule.k = Context.shared rule.l rule.l :=
    Except.ok.inj (hcontext.symm.trans (Context.derive_eq rule.l rule.l))
  have hl := hrule.l_wellFormed
  have hshared := Context.wellFormed_shared rule.l rule.l
  obtain ⟨hnodeNames, harcNames, hhyperarcNames⟩ := Context.names_shared hl.linked hl.linked
  have hnodes := hrule.node_pairs
  have harcs := hrule.arc_pairs
  have hhyperarcs := hrule.hyperarc_pairs
  rw [hsame] at hnodes harcs hhyperarcs
  rw [hk] at hnodes harcs hhyperarcs
  exact ⟨hsame,
    hnodes.fixes hl.nodes_indexed fun _ hname =>
      Context.contains_of_names hl.nodes_indexed hshared.nodes_indexed hnodeNames hname hname,
    harcs.fixes hl.arcs_indexed fun _ hname =>
      Context.contains_of_names hl.arcs_indexed hshared.arcs_indexed harcNames hname hname,
    hhyperarcs.fixes hl.hyperarcs_indexed fun _ hname =>
      Context.contains_of_names hl.hyperarcs_indexed hshared.hyperarcs_indexed hhyperarcNames
        hname hname⟩

/-! ## Moving along from an element to itself

Labels that both sides have are neither taken off nor put on. Variables are written where L and R
differ, and the comparison is that of floating-point numbers: a number that is not equal to
itself counts as a difference. This is what `Graph.EqualsItself` excludes. -/

section MoveAlong

/-- Attributes that are moved along from an element to itself stay. -/
theorem Attributes.moveAlong_self (a : Attributes) {other : Attributes}
    (h : (other.values == other.values) = true) : a.moveAlong other other = a := by
  unfold moveAlong
  rw [LabelSet.moveAlong_self, if_pos h, if_pos rfl]

/-- The same for an element of any kind. -/
theorem Attributed.moveAlong_self {α : Type} [Attributed α] (a : α) {other : α}
    (h : ((attributes other).values == (attributes other).values) = true) :
    Attributed.moveAlong a other other = a := by
  unfold Attributed.moveAlong
  rw [Attributes.moveAlong_self _ h, withAttributes_attributes]

/-- The same for an arc, whose flags are compared as well. -/
theorem Arc.moveAlong_self (arc : Arc) {other : Arc} (h : (other.values == other.values) = true) :
    arc.moveAlong other other = arc := by
  unfold Arc.moveAlong
  simp [Attributed.moveAlong_self arc h]

namespace Update

variable {place : NodeKey → Option NodeKey} (hsame : rule.r = rule.l)

include hsame

/-- **An image that is brought from an arc to itself is left alone or turned around.** -/
theorem broughtArc_self {other : Arc} (h : (other.values == other.values) = true)
    (backToFront : Bool) (arc : Arc) :
    broughtArc rule place other other backToFront arc
      = if backToFront && other.isOriented then arc.turned else arc := by
  have hidle : ∀ (turn : Bool) (arc : Arc) (e : ArcEnd),
      reconnectedArc rule place other other turn arc e = arc := fun _ _ _ =>
    if_pos (by rw [hsame])
  unfold broughtArc ArcEnd.both
  dsimp only
  rw [Arc.moveAlong_self _ h]
  simp only [List.foldl_cons, List.foldl_nil, hidle]

/-- A hyperarc that is brought from an element to itself is left alone. -/
theorem broughtHyperArc_self {other : HyperArc} (h : (other.values == other.values) = true)
    (hyperarc : HyperArc) : broughtHyperArc rule o place other other hyperarc = hyperarc := by
  have hleaving : leavingMembers rule other other = [] :=
    List.eq_nil_iff_forall_not_mem.2 fun m hm => by
      obtain ⟨hmem, hnone⟩ := mem_leavingMembers.1 hm
      exact hnone ⟨m, hmem, by rw [hsame]⟩
  have hcoming : comingMembers rule other other = [] :=
    List.eq_nil_iff_forall_not_mem.2 fun m hm => by
      obtain ⟨hmem, hnone⟩ := mem_comingMembers.1 hm
      exact hnone ⟨m, hmem, by rw [hsame]⟩
  unfold broughtHyperArc
  dsimp only
  rw [hleaving, hcoming]
  exact Attributed.moveAlong_self hyperarc h

end Update

end MoveAlong

/-! ## The arcs that are turned around

Turning is one change that some arcs undergo and others do not. So the changes of all images come
to a list of images to be turned, and the order in which they are made is of no matter. -/

/-- A graph with some of its arcs turned around. -/
def Graph.turnArcs (g : Graph) (keys : List ArcKey) : Graph :=
  { g with arcs := g.arcs.modifyAll (keys.map fun key => (key, Arc.turned)) }

/-- The images of the oriented arcs of L that lie back to front. Different arcs of L
have different images, so none is listed twice (`nodup_turnedArcs`). -/
def GrammarRule.turnedArcs (rule : GrammarRule) (host : Graph) (o : RuleOption) : List ArcKey :=
  ((rule.l.arcs.entries.filter fun entry =>
    Update.isReversed host o entry.1 entry.2 && entry.2.isOriented).map Prod.fst).filterMap o.arc?

/-- Changes that change nothing. -/
theorem Registry.modifyAll_eq_self {κ : Kind} {α : Type} {changes : List (Key κ × (α → α))}
    (r : Registry κ α) (h : ∀ change ∈ changes, change.2 = id) : r.modifyAll changes = r := by
  induction changes with
  | nil => rfl
  | cons change rest ih =>
    rw [modifyAll_cons, h change List.mem_cons_self]
    refine (congrArg (modifyAll · rest) (r.modify_id change.1)).trans ?_
    exact ih fun other hother => h other (List.mem_cons_of_mem _ hother)

/-- The change for one pair, if the element of L has an image. -/
theorem Registry.changesOf_cons {κ : Kind} {α : Type} {image? : Key κ → Option (Key κ)}
    {f : Key κ → α → α → α → α} (pair : Key κ × α × α) (rest : List (Key κ × α × α)) :
    changesOf (pair :: rest) image? f
      = ((image? pair.1).map (·, f pair.1 pair.2.1 pair.2.2)).toList
        ++ changesOf rest image? f := by
  obtain ⟨key, before, after⟩ := pair
  cases himage : image? key <;> simp [changesOf, himage]

/-- Of changes that change some elements in one way and leave the others alone, the former
are enough. -/
theorem Registry.modifyAll_changesOf {κ : Kind} {α : Type} {image? : Key κ → Option (Key κ)}
    {p : Key κ × α → Bool} {g : α → α} {f : Key κ → α → α → α → α}
    (entries : List (Key κ × α))
    (hf : ∀ entry ∈ entries, f entry.1 entry.2 entry.2 = if p entry then g else id)
    (r : Registry κ α) :
    r.modifyAll (changesOf (entries.map fun entry => (entry.1, entry.2, entry.2)) image? f)
      = r.modifyAll ((((entries.filter p).map Prod.fst).filterMap image?).map
          fun key => (key, g)) := by
  induction entries generalizing r with
  | nil => rfl
  | cons entry rest ih =>
    have ih := ih fun other hother => hf other (List.mem_cons_of_mem _ hother)
    have hentry := hf entry List.mem_cons_self
    rw [List.map_cons, changesOf_cons, List.filter_cons]
    cases himage : image? entry.1 with
    | none =>
      rw [Option.map_none, Option.toList_none, List.nil_append, ih]
      split
      · rw [List.map_cons, List.filterMap_cons_none himage]
      · rfl
    | some image =>
      rw [Option.map_some, Option.toList_some, List.singleton_append, modifyAll_cons, hentry, ih]
      split
      · rw [List.map_cons, List.filterMap_cons_some himage, List.map_cons, modifyAll_cons]
      · exact congrArg (modifyAll · _) (r.modify_id image)

/-! ## The steps of an application

The application is followed from phase to phase. Each of them is the identity, except for the
turning of arcs and for global labels that are written back. -/

namespace GrammarRule.Idle

variable (hidle : rule.Idle)

include hidle

/-- Nothing is deleted, and no end comes free. -/
theorem deleteAll_eq (d : Derivation) : Deletion.deleteAll rule o d = (d, []) := by
  unfold Deletion.deleteAll Deletion.deleteNodes Deletion.deleteHyperArcs Deletion.deleteArcs
  dsimp only
  rw [hidle.nodes.filter_right?_isNone, hidle.arcs.filter_right?_isNone,
    hidle.hyperarcs.filter_right?_isNone]
  rfl

/-- There is no node to add. -/
theorem freshNodes_eq : rule.freshNodes = [] := by
  unfold freshNodes
  rw [hidle.same]
  exact hidle.nodes.filter_left?_isNone

/-- The pairs of nodes are pairs of L with itself. -/
theorem nodePairs_eq :
    rule.nodePairs = pairsOf rule.l.nodes rule.l.nodes rule.contextNodes :=
  congrArg (fun r : Graph => pairsOf rule.l.nodes r.nodes rule.contextNodes) hidle.same

/-- The pairs of arcs are pairs of L with itself. -/
theorem arcPairs_eq : rule.arcPairs = pairsOf rule.l.arcs rule.l.arcs rule.contextArcs :=
  congrArg (fun r : Graph => pairsOf rule.l.arcs r.arcs rule.contextArcs) hidle.same

/-- The pairs of hyperarcs are pairs of L with itself. -/
theorem hyperarcPairs_eq :
    rule.hyperarcPairs = pairsOf rule.l.hyperarcs rule.l.hyperarcs rule.contextHyperArcs :=
  congrArg (fun r : Graph => pairsOf rule.l.hyperarcs r.hyperarcs rule.contextHyperArcs)
    hidle.same

/-- The nodes stay as they are. -/
theorem updateNodes_eq_self (hvalues : rule.l.EqualsItself) (g : Graph) :
    Update.updateNodes rule o g = g := by
  rw [Update.updateNodes_eq, Registry.modifyAll_eq_self]
  intro change hchange
  obtain ⟨key, before, after, hpair, -, hf⟩ := Registry.mem_changesOf.1 hchange
  rw [hidle.nodePairs_eq] at hpair
  obtain ⟨hbefore, rfl⟩ := hidle.nodes.eq_of_mem_pairsOf hpair
  rw [← hf]
  have hequal := hvalues.nodes _ (Registry.mem_elements_iff.2 ⟨key, hbefore⟩)
  exact funext fun node => Attributed.moveAlong_self node hequal

/-- Nodes of R are at the images of the nodes of L, and none is added. -/
theorem addNodes_eq (hrule : rule.Coherent) (hfits : o.Fits host rule) :
    (Addition.addNodes rule o { host }).1 = { host } ∧
      ∀ m n, (Addition.addNodes rule o { host }).2.lookup m = some n → host.hasNode n = true := by
  obtain ⟨hplaced, himages⟩ := Addition.addNodes_eq (o := o) hrule { host }
  rw [hidle.freshNodes_eq] at hplaced himages
  refine ⟨hplaced, fun m n hlookup => ?_⟩
  rw [himages] at hlookup
  rcases (Correspondence.placeIn_eq_some rule.r.nodes.nodup_keys).1 hlookup with
    ⟨lKey, -, himage⟩ | ⟨-, i, -, hi⟩
  · exact (hfits.of_node? hrule himage).2.2
  · exact nomatch hi

/-- **Of the arcs some are turned around**, and that is all. The list of changes has one entry
for each arc of L, and those that do nothing are left out. By the time an arc is looked at the
others may have been turned around, so the induction is over the pairs with the arcs turned so
far. -/
theorem updateArcs_eq (hhost : host.WellFormed) (hrule : rule.Coherent)
    (hfits : o.Fits host rule) (hvalues : rule.l.EqualsItself) {images : Update.NodeImages}
    (hplace : ∀ m n, images.lookup m = some n → host.hasNode n = true) :
    Update.updateArcs rule o images (Update.reversedArcs host rule o) host
      = .ok (host.turnArcs (rule.turnedArcs host o)) ∧
      (host.turnArcs (rule.turnedArcs host o)).WellFormed := by
  have hchanges : host.arcs.modifyAll (Update.arcChanges rule o (images.lookup ·)
      (Update.reversedArcs host rule o) rule.arcPairs)
        = (host.turnArcs (rule.turnedArcs host o)).arcs := by
    rw [hidle.arcPairs_eq, hidle.arcs.pairsOf_eq]
    refine Registry.modifyAll_changesOf _ (fun entry hentry => funext fun arc => ?_) _
    have harc := Registry.mem_entries_iff.1 hentry
    rw [Update.broughtArc_self hidle.same (hvalues.arcs _ (Registry.mem_elements_iff.2 ⟨_, harc⟩)),
      Update.contains_reversedArcs harc]
    split <;> rfl
  have halive : ∀ pair ∈ rule.arcPairs, ∃ image, o.arc? pair.1 = some image ∧
      host.arcs.contains image = true := by
    intro pair hpair
    obtain ⟨-, rKey, hright, -⟩ := mem_pairsOf.1 hpair
    obtain ⟨image, given, himage, hgiven⟩ := hfits.exists_arc? hrule hright
    exact ⟨image, himage, Registry.contains_iff.2 ⟨given, hgiven⟩⟩
  obtain ⟨hupdated, hwellFormed⟩ :=
    Update.updateArc_foldlM (Update.reversedArcs host rule o) rule.arcPairs hhost hplace halive
  rw [hchanges] at hupdated hwellFormed
  exact ⟨hupdated, hwellFormed⟩

/-- The hyperarcs stay as they are. -/
theorem updateHyperArcs_eq_self {g : Graph} (hg : g.WellFormed)
    (hvalues : rule.l.EqualsItself) {images : Update.NodeImages}
    (hplace : ∀ m n, images.lookup m = some n → g.hasNode n = true)
    (halive : ∀ pair ∈ rule.hyperarcPairs, ∃ image, o.hyperarc? pair.1 = some image ∧
      g.hyperarcs.contains image = true) :
    Update.updateHyperArcs rule o images g = .ok g := by
  refine (Update.updateHyperArc_foldlM rule.hyperarcPairs hg hplace halive).1.trans ?_
  rw [Registry.modifyAll_eq_self]
  intro change hchange
  obtain ⟨key, before, after, hpair, -, hf⟩ := Registry.mem_changesOf.1 hchange
  rw [hidle.hyperarcPairs_eq] at hpair
  obtain ⟨hbefore, rfl⟩ := hidle.hyperarcs.eq_of_mem_pairsOf hpair
  rw [← hf]
  exact funext fun hyperarc =>
    Update.broughtHyperArc_self hidle.same
      (hvalues.hyperarcs _ (Registry.mem_elements_iff.2 ⟨key, hbefore⟩)) hyperarc

/-- There is no arc to add. -/
theorem addArcs_eq (images : Update.NodeImages) (d : Derivation) :
    Addition.addArcs rule images d = .ok d := by
  unfold Addition.addArcs
  dsimp only
  rw [hidle.same, hidle.arcs.filter_left?_isNone]
  rfl

/-- There is no hyperarc to add. -/
theorem addHyperArcs_eq (images : Update.NodeImages) (d : Derivation) :
    Addition.addHyperArcs rule images d = .ok d := by
  unfold Addition.addHyperArcs
  dsimp only
  rw [hidle.same, hidle.hyperarcs.filter_left?_isNone]
  rfl

/-- The global labels are written back where their run was found, and otherwise left. -/
theorem updateGlobals_eq (hvalues : rule.l.EqualsItself) (g : Graph) :
    Update.updateGlobals rule o g
      = { g with globalLabels := Update.labelsAfter rule o g.globalLabels } := by
  have hglobals : (rule.l.globalVariables == rule.r.globalVariables) = true := by
    rw [hidle.same]
    exact hvalues.globals
  unfold Update.labelsAfter Update.updateGlobals
  dsimp only
  rw [if_pos hglobals]

/-- **What an idle rule does to a host.** -/
theorem carryOut_eq (hhost : host.WellFormed) (hrule : rule.Coherent) (hfits : o.Fits host rule)
    (hvalues : rule.l.EqualsItself) (hstill : rule.transformNodePositions = false) :
    carryOut host rule o
      = .ok { host := { host.turnArcs (rule.turnedArcs host o) with
                globalLabels := Update.labelsAfter rule o host.globalLabels } } := by
  have hupdated : Derivation.mapHost { host } (Update.updateNodes rule o) = { host } :=
    congrArg (Derivation.mk · {}) (hidle.updateNodes_eq_self hvalues host)
  obtain ⟨hplaced, hplace⟩ := hidle.addNodes_eq hrule hfits
  unfold carryOut
  dsimp only
  rw [hidle.deleteAll_eq, hupdated, hstill, hplaced]
  generalize (Addition.addNodes rule o { host }).2 = images at hplace ⊢
  obtain ⟨harcs, hwellFormed⟩ := hidle.updateArcs_eq hhost hrule hfits hvalues hplace
  have hhyperarcs := hidle.updateHyperArcs_eq_self hwellFormed hvalues hplace
    fun pair hpair => by
      obtain ⟨-, rKey, hright, -⟩ := mem_pairsOf.1 hpair
      obtain ⟨image, given, himage, hgiven⟩ := hfits.exists_hyperarc? hrule hright
      exact ⟨image, himage, Registry.contains_iff.2 ⟨given, hgiven⟩⟩
  refine (bind_of_eq_ok (Derivation.mapHostM_eq_ok harcs) _).trans
    ((bind_of_eq_ok (Derivation.mapHostM_eq_ok hhyperarcs) _).trans
      ((bind_of_eq_ok (hidle.addArcs_eq images _) _).trans
        ((bind_of_eq_ok (hidle.addHyperArcs_eq images _) _).trans ?_)))
  exact congrArg (fun g => Except.ok (Derivation.mk g {})) (hidle.updateGlobals_eq hvalues _)

end GrammarRule.Idle

/-! ## The application

The option was recognized, so its images are distinct and lie as L asks. An image that lies back
to front although L orients it can only be one that points both ways. -/

namespace GrammarRule

/-- An image is turned around only once. -/
theorem nodup_turnedArcs (hdistinct : o.toAssignment.Distinct) :
    (rule.turnedArcs host o).Nodup := by
  have hkeys : ((rule.l.arcs.entries.filter fun entry =>
      Update.isReversed host o entry.1 entry.2 && entry.2.isOriented).map Prod.fst).Nodup :=
    rule.l.arcs.nodup_keys.sublist (List.filter_sublist.map Prod.fst)
  exact hkeys.filterMap fun _ _ _ => hdistinct.arc_inj

/-- What is turned around is the image of an oriented arc that the applier takes to be met back
to front. -/
theorem mem_turnedArcs {image : ArcKey} :
    image ∈ rule.turnedArcs host o ↔ ∃ key arc, rule.l.arc? key = some arc ∧
      o.arc? key = some image ∧ Update.isReversed host o key arc = true ∧
      arc.isOriented = true := by
  unfold turnedArcs
  rw [List.mem_filterMap]
  constructor
  · rintro ⟨_, hmem, himage⟩
    obtain ⟨⟨key, arc⟩, hentry, rfl⟩ := List.mem_map.1 hmem
    obtain ⟨hentry, hturned⟩ := List.mem_filter.1 hentry
    exact ⟨key, arc, Registry.mem_entries_iff.1 hentry, himage, Bool.and_eq_true_iff.1 hturned⟩
  · rintro ⟨key, arc, harc, himage, hturned⟩
    exact ⟨key, List.mem_map.2 ⟨(key, arc), List.mem_filter.2
      ⟨Registry.mem_entries_iff.2 harc, Bool.and_eq_true_iff.2 hturned⟩, rfl⟩, himage⟩

/-- **Only an arc that points both ways is turned around.** -/
theorem of_mem_turnedArcs (hoccurs : rule.OccursAt host .positive o.toAssignment) {image : ArcKey}
    (h : image ∈ rule.turnedArcs host o) :
    ∃ given, host.arc? image = some given ∧ given.directed = true ∧
      given.doublyDirected = true := by
  obtain ⟨key, arc, harc, himage, hreversed, horiented⟩ := mem_turnedArcs.1 h
  obtain ⟨arc', given, harc', hgiven, hsuits⟩ := hoccurs.suits (.arc key) image.index
    (Assignment.image?_arc.2 himage)
  cases harc.symm.trans harc'
  refine ⟨given, hgiven, hsuits.directed horiented, ?_⟩
  rcases hsuits.lies with hlies | ⟨hfree, -⟩
  · have hforward := Update.isReversed_of_along himage hgiven (Update.along_of_liesAlong hlies)
    exact nomatch hreversed.symm.trans hforward
  · exact hfree.resolve_left fun hfree => nomatch horiented.symm.trans hfree

end GrammarRule

/-- An edge that points both ways. -/
def Graph.twoWay : Graph where
  nodes := .ofElements [{ name := "a" }, { name := "b" }]
  arcs := .ofElements [{
    name := "e", source := some ⟨0⟩, target := some ⟨1⟩, directed := true, doublyDirected := true }]

/-- The ends of the edge are there. -/
theorem Graph.twoWay_wellFormed : Graph.twoWay.WellFormed :=
  Graph.wellFormed_of_copy_eq rfl (Graph.membersDistinct_of_no_hyperarcs rfl)

/-- The draft of a rule that keeps an arrow as it is. -/
def RuleDraft.keepArrow : RuleDraft where
  name := "keep arrow"
  l := .edge true
  r := .edge true

/-- The draft passes every check, and its context is derived. -/
theorem build_keepArrow : RuleDraft.keepArrow.build = .ok .keepArrow := rfl

/-- The arrow is met in both directions. -/
theorem length_options_keepArrow : (recognize .twoWay .keepArrow {}).options.length = 2 := by
  decide +kernel

end GraphGrammar
