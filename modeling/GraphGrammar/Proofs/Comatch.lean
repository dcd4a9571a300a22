import GraphGrammar.Proofs.Application
import GraphGrammar.Proofs.Orientation
import GraphGrammar.Proofs.Pattern

/-!
# After an application, R is there

The *comatch* of an application sends the context elements of R to the images of
their counterparts, and the others to the keys they were added under. It finds R
in the host that the application leaves, as long as L and R share no node by name
that the context leaves out, and no condition lets an element of L match without
all of its labels.

Each kind has a lemma for the elements that were added and one for those that
were brought along. For the latter, what the match says of the element of L is
carried over to R by what the fate of its image is.

Both conditions are needed. A node that L and R share by name and that the context leaves out is
deleted and added again, and an arc of the context at it is not reconnected, since the names tell
the application that the end has not moved. And a match by any one of the labels promises nothing
about the others, which R may have as well.
-/

namespace GraphGrammar

open Attributed

/-! ## The comatch

The comatch is defined from the report of the application and from nothing else, so a caller can
compute it. -/

/-- **Where R is after an application.** It is read off the assignment and the report; the host
that was left is not searched. -/
def GrammarRule.comatch (rule : GrammarRule) (a : Assignment) (report : ApplyReport) :
    Assignment where
  nodes := rule.r.nodes.keys.map
    (rule.contextNodes.placeIn a.node? rule.r.nodes.keys report.addedNodes)
  arcs := rule.r.arcs.keys.map
    (rule.contextArcs.placeIn a.arc? rule.r.arcs.keys report.addedArcs)
  hyperarcs := rule.r.hyperarcs.keys.map
    (rule.contextHyperArcs.placeIn a.hyperarc? rule.r.hyperarcs.keys report.addedHyperArcs)

section Places

variable {κ : Kind} {α β : Type}

/-- Different elements in different places make a list of places without repeats. -/
theorem Registry.nodup_places {r : Registry κ α} {f : Key κ → Option β}
    (hinj : ∀ {key other place}, f key = some place → f other = some place → key = other) :
    ((r.keys.map f).filterMap id).Nodup := by
  rw [List.filterMap_map]
  exact r.nodup_keys.filterMap fun _ _ _ => hinj

variable {c : Correspondence (Key κ) (Key κ)} {image? : Key κ → Option (Key κ)}
  {keys added more : List (Key κ)}

/-- Keys that are given beyond those needed are not looked at. -/
theorem Correspondence.placeIn_append (hlength : (c.fresh keys).length ≤ added.length) :
    c.placeIn image? keys (added ++ more) = c.placeIn image? keys added := by
  have hzip : ∀ {fresh added : List (Key κ)}, fresh.length ≤ added.length →
      fresh.zip (added ++ more) = fresh.zip added := by
    intro fresh
    induction fresh with
    | nil => exact fun _ => rfl
    | cons first rest ih =>
      intro added hlength
      cases added with
      | nil => exact absurd hlength (Nat.not_succ_le_zero _)
      | cons next others => exact congrArg (_ :: ·) (ih (Nat.le_of_succ_le_succ hlength))
  funext key
  unfold placeIn
  rw [hzip hlength]

/-- The elements without counterpart are as many as their keys. -/
theorem Registry.fresh_keys (r : Registry κ α) :
    c.fresh r.keys
      = (r.entries.filter fun (key, _) => (c.left? key).isNone).map Prod.fst := by
  unfold Correspondence.fresh Registry.keys
  rw [List.filter_map]
  rfl

/-- **An element that was added is found where it was added.** -/
theorem Registry.Rewritten.exists_of_fresh [Attributed α] {r s after : Registry κ α}
    {fate : Key κ → α → Option α} {g : α → α}
    (h : Registry.Rewritten s after fate
      ((r.entries.filter fun (key, _) => (c.left? key).isNone).map fun entry => g entry.2))
    (image? : Key κ → Option (Key κ)) {key : Key κ} {a : α} (ha : r.get? key = some a)
    (hleft : c.left? key = none) : ∃ place name, c.placeIn image? r.keys
        (s.nextKeys (r.entries.filter fun (key, _) => (c.left? key).isNone).length) key
        = some place ∧
      s.cells.length ≤ place.index ∧ after.get? place = some (renamed (g a) name) := by
  have hmem : (key, a) ∈ r.entries.filter fun (key, _) => (c.left? key).isNone :=
    List.mem_filter.2 ⟨Registry.mem_entries_iff.2 ha, by simp [hleft]⟩
  obtain ⟨i, hi⟩ := List.mem_iff_getElem?.1 hmem
  obtain ⟨name, hname⟩ := h.new i (g a) (by rw [List.getElem?_map, hi]; rfl)
  refine ⟨⟨s.cells.length + i⟩, name, ?_, Nat.le_add_right _ _, hname⟩
  refine (Correspondence.placeIn_eq_some r.nodup_keys).2 (.inr ⟨hleft, i, ?_, ?_⟩)
  · rw [Registry.fresh_keys, List.getElem?_map, hi]
    rfl
  · exact Registry.getElem?_nextKeys s (List.getElem?_eq_some_iff.1 hi).1

end Places

/-! ## Labels

An update moves the labels of an element along: those that L has and R does not are taken off,
those that R has and L does not are put on. If the labels of L were all there, the labels of R
are all there afterwards. -/

/-- No positive element of L is satisfied with any one of its labels. Negative elements have no
image, so nothing is asked of them. -/
structure GrammarRule.CarriesLabels (rule : GrammarRule) : Prop where
  node : ∀ key, rule.l.hasNode key = true → rule.isNegativeNode key = false →
    (rule.nodeCondition key).labelMatch ≠ .any
  arc : ∀ key, rule.l.arcs.contains key = true → rule.isNegativeArc key = false →
    (rule.arcCondition key).labelMatch ≠ .any
  hyperarc : ∀ key, rule.l.hyperarcs.contains key = true → rule.isNegativeHyperArc key = false →
    (rule.hyperarcCondition key).labelMatch ≠ .any

/-- Every comparison but the one that is content with any label finds all labels of L in the
host. -/
theorem LabelMatch.Met.subset {mode : LabelMatch} {pattern host : LabelSet}
    (h : mode.Met pattern host) (hmode : mode ≠ .any) :
    ∀ label ∈ pattern.toList, label ∈ host.toList := by
  cases mode with
  | subset => exact h
  | exact => exact h.2
  | any => exact absurd rfl hmode

/-- Taking labels off leaves the others on. -/
theorem LabelSet.mem_foldl_erase {label : Label} :
    ∀ {labels : List Label} {s : LabelSet}, label ∈ s.toList → label ∉ labels →
      label ∈ (labels.foldl erase s).toList
  | [], _, h, _ => h
  | first :: rest, s, h, hlabels => by
    rw [List.mem_cons, not_or] at hlabels
    exact mem_foldl_erase (s := s.erase first) ((List.mem_erase_of_ne hlabels.1).2 h) hlabels.2

/-- **Labels that are moved along carry those of the goal**, if they carried those
of the start. -/
theorem LabelSet.mem_moveAlong {s before after : LabelSet}
    (h : ∀ label ∈ before.toList, label ∈ s.toList) {label : Label}
    (hlabel : label ∈ after.toList) : label ∈ (s.moveAlong before after).toList := by
  unfold moveAlong
  rw [mem_foldl_insert]
  by_cases hbefore : label ∈ before.toList
  · refine .inl (mem_foldl_erase (h label hbefore) fun hmem => ?_)
    have hgone := (List.mem_filter.1 hmem).2
    rw [contains_iff_mem.2 hlabel] at hgone
    exact nomatch hgone
  · refine .inr (List.mem_filter.2 ⟨hlabel, ?_⟩)
    rw [Bool.not_eq_true', ← Bool.not_eq_true, contains_iff_mem]
    exact hbefore

/-- Bringing an arc to R moves it along, wherever its ends go. So what is said of labels and
variables can leave the ends aside. Turning an arc around and setting one of its ends are both
changes of ends, so the proof goes through the steps of bringing it and forgets what the ends
are. -/
theorem Update.exists_broughtArc_eq (rule : GrammarRule) (place : NodeKey → Option NodeKey)
    (before after : Arc) (backToFront : Bool) (arc : Arc) :
    ∃ source target, broughtArc rule place before after backToFront arc
      = ({ arc with source, target } : Arc).moveAlong before after := by
  have hreconnected : ∀ (turn : Bool) (e : ArcEnd) (arc : Arc), ∃ source target,
      reconnectedArc rule place before after turn arc e = { arc with source, target } := by
    intro turn e arc
    unfold reconnectedArc
    split
    · exact ⟨arc.source, arc.target, rfl⟩
    · generalize (if turn = true then e.opposite else e) = side
      cases side with
      | source => exact ⟨_, arc.target, rfl⟩
      | target => exact ⟨arc.source, _, rfl⟩
  have haligned : ∀ turn : Bool, ∃ source target,
      (if turn then arc.turned else arc) = { arc with source, target } := by
    intro turn
    cases turn with
    | false => exact ⟨arc.source, arc.target, rfl⟩
    | true => exact ⟨arc.target, arc.source, rfl⟩
  unfold broughtArc
  dsimp only
  generalize (backToFront && !(backToFront && after.isOriented)) = turn
  obtain ⟨_, _, halign⟩ := haligned (backToFront && after.isOriented)
  rw [halign]
  show ∃ source target, (reconnectedArc rule place before after turn
    (reconnectedArc rule place before after turn _ .source) .target).moveAlong before after = _
  obtain ⟨_, _, hsource⟩ := hreconnected turn .source { arc with source := _, target := _ }
  rw [hsource]
  obtain ⟨source, target, htarget⟩ :=
    hreconnected turn .target { arc with source := _, target := _ }
  rw [htarget]
  exact ⟨source, target, rfl⟩

/-- The labels of an arc that is moved along are its labels moved along. -/
theorem Arc.labels_moveAlong (arc before after : Arc) :
    (arc.moveAlong before after).labels = arc.labels.moveAlong before.labels after.labels := by
  unfold Arc.moveAlong
  dsimp only
  split <;> rfl

/-- An arc that R orients is directed once it is brought to R, if it was directed
where L orients it. -/
theorem Arc.directed_moveAlong {arc before after : Arc}
    (harc : before.isOriented = true → arc.directed = true) (hafter : after.isOriented = true) :
    (arc.moveAlong before after).directed = true := by
  unfold Arc.moveAlong
  dsimp only
  split
  · rename_i hsame
    rw [Bool.and_eq_true, decide_eq_true_iff, decide_eq_true_iff] at hsame
    refine harc ?_
    rw [Arc.isOriented, hsame.1, hsame.2]
    exact hafter
  · exact (Bool.and_eq_true_iff.1 hafter).1

/-! ## What the comatch assigns

The places of the elements of R are known from the description of the host before free ends are
reattached. Reattaching changes arcs at free ends only, and none of them is an image or was
added. -/

section

variable {host : Graph} {rule : GrammarRule} {o : RuleOption} {d done : Derivation}
  {free : List ArcKey}

/-- Every node of R has a place. -/
theorem Replaced.exists_placeAt (h : Replaced host rule o d) (hrule : rule.Coherent)
    (hfits : o.Fits host rule) {key : NodeKey} (hkey : rule.r.hasNode key = true) :
    ∃ place, rule.placeAt host o.toAssignment key = some place := by
  cases hleft : rule.contextNodes.left? key with
  | some lKey =>
    have hright := (hrule.node_pairs.left?_iff lKey key).1 hleft
    obtain ⟨image, himage⟩ := hfits.exists_node? hrule hright
    exact ⟨image, (Correspondence.placeIn_of_left? hleft).trans himage⟩
  | none =>
    obtain ⟨node, hnode⟩ := Graph.hasNode_iff.1 hkey
    obtain ⟨place, _, hplace, -⟩ := h.nodes.exists_of_fresh o.node? hnode hleft
    exact ⟨place, hplace⟩

namespace Applied

variable (h : Applied host rule o d done free)

include h

/-- An image that is no free end is not touched once L has been replaced. -/
theorem arc?_of_image {image : ArcKey} (himage : image ∈ o.arcImages)
    {arc : Arc} (harc : d.host.arc? image = some arc) : done.host.arc? image = some arc := by
  rw [h.reattaches.arc? image (Registry.lt_of_get?_eq_some harc) fun hfree =>
    (h.free_old image hfree).1 himage]
  exact harc

/-- An arc that was added is no free end. -/
theorem arc?_of_added {key : ArcKey} (hkey : host.arcs.cells.length ≤ key.index) {arc : Arc}
    (harc : d.host.arc? key = some arc) : done.host.arc? key = some arc := by
  rw [h.reattaches.arc? key (Registry.lt_of_get?_eq_some harc) fun hfree =>
    Nat.not_lt.2 hkey (h.free_old key hfree).2]
  exact harc

variable (hrule : rule.Coherent)

include hrule

/-- The comatch sends a node to its place. -/
theorem comatch_node? {key : NodeKey} (hkey : rule.r.hasNode key = true) :
    (rule.comatch o.toAssignment done.report).node? key
      = rule.placeAt host o.toAssignment key := by
  refine (hrule.r_compact.nodes.join_getElem?_map_keys _ key).trans ((if_pos hkey).trans ?_)
  rw [h.reattaches.addedNodes, h.replaced.addedNodes]
  rfl

omit hrule in
/-- The keys that were reported for arcs are the keys that the host gave out for the new arcs of
R. -/
theorem placeIn_addedArcs :
    rule.contextArcs.placeIn o.arc? rule.r.arcs.keys done.report.addedArcs
      = rule.contextArcs.placeIn o.arc? rule.r.arcs.keys
          (host.arcs.nextKeys rule.freshArcs.length) := by
  obtain ⟨more, hmore⟩ := h.reattaches.addedArcs
  rw [← hmore, h.replaced.addedArcs, Correspondence.placeIn_append]
  rw [Registry.fresh_keys, List.length_map, Registry.length_nextKeys]
  exact Nat.le_refl _

/-- The comatch sends an arc to its place. -/
theorem comatch_arc? {key : ArcKey} (hkey : rule.r.arcs.contains key = true) :
    (rule.comatch o.toAssignment done.report).arc? key
      = rule.contextArcs.placeIn o.arc? rule.r.arcs.keys
          (host.arcs.nextKeys rule.freshArcs.length) key := by
  refine (hrule.r_compact.arcs.join_getElem?_map_keys _ key).trans ?_
  rw [if_pos hkey, h.placeIn_addedArcs]

/-- The comatch sends a hyperarc to its place. -/
theorem comatch_hyperarc? {key : HyperArcKey} (hkey : rule.r.hyperarcs.contains key = true) :
    (rule.comatch o.toAssignment done.report).hyperarc? key
      = rule.contextHyperArcs.placeIn o.hyperarc? rule.r.hyperarcs.keys
          (host.hyperarcs.nextKeys rule.freshHyperArcs.length) key := by
  refine (hrule.r_compact.hyperarcs.join_getElem?_map_keys _ key).trans ?_
  rw [if_pos hkey, h.reattaches.addedHyperArcs, h.replaced.addedHyperArcs]

variable (hfits : o.Fits host rule)

include hfits

/-- After the application every node of R is somewhere. -/
theorem exists_placeAt {key : NodeKey} (hkey : rule.r.hasNode key = true) :
    ∃ place, rule.placeAt host o.toAssignment key = some place :=
  h.replaced.exists_placeAt hrule hfits hkey

variable (hdistinct : o.toAssignment.Distinct)

include hdistinct

/-- Different elements of R are found in different places. -/
theorem comatch_distinct : (rule.comatch o.toAssignment done.report).Distinct := by
  constructor
  · refine Registry.nodup_places fun {key other place} hkey hother => ?_
    rw [h.reattaches.addedNodes, h.replaced.addedNodes] at hkey hother
    exact rule.placeAt_injective hrule hdistinct hfits hkey hother
  · refine Registry.nodup_places fun {key other place} hkey hother => ?_
    rw [h.placeIn_addedArcs] at hkey hother
    refine hrule.arc_pairs.placeIn_injective hdistinct.arc_inj (fun lKey image himage => ?_)
      hkey hother
    exact Registry.lt_of_contains (hfits.contains_arc hrule himage)
  · refine Registry.nodup_places fun {key other place} hkey hother => ?_
    rw [h.reattaches.addedHyperArcs, h.replaced.addedHyperArcs] at hkey hother
    refine hrule.hyperarc_pairs.placeIn_injective hdistinct.hyperarc_inj
      (fun lKey image himage => ?_) hkey hother
    exact Registry.lt_of_contains (hfits.contains_hyperarc hrule himage)

/-! ## R in the host

Each element of R is gone through. If it was added, it is there as R has it. If it was brought
along, its image met what L asks, and the change from L to R was made on it. -/

variable (hmatch : rule.Matches host o.toAssignment) (hlabels : rule.CarriesLabels)

omit hfits

include hmatch hlabels

/-- A node of R is found with its labels. Its variables need not be there: what the image had
beside those of L was moved along. A new node has the labels of R as they stand. A node of the
context had those of L, since it is positive and was matched, and moving its labels along adds
those of R. -/
theorem node_found {key : NodeKey} {node : Node} (hnode : rule.r.node? key = some node) :
    ∃ image given, (rule.comatch o.toAssignment done.report).node? key = some image ∧
      done.host.node? image = some given ∧
      ∀ label ∈ node.labels.toList, label ∈ given.labels.toList := by
  have hdone : ∀ image, done.host.node? image = d.host.node? image := fun image =>
    congrArg (Registry.get? · image) h.reattaches.nodes
  simp only [h.comatch_node? hrule (Graph.hasNode_iff.2 ⟨node, hnode⟩), hdone]
  cases hleft : rule.contextNodes.left? key with
  | none =>
    obtain ⟨place, name, hplace, -, hgiven⟩ :=
      h.replaced.nodes.exists_of_fresh o.node? hnode hleft
    exact ⟨place, _, hplace, hgiven, fun _ hlabel => hlabel⟩
  | some lKey =>
    -- a context node: its counterpart is positive, so it has an image, which was brought to R
    have hright := (hrule.node_pairs.left?_iff lKey key).1 hleft
    have hpositive := hrule.positive_nodes lKey key hright
    obtain ⟨before, _, hbefore, hafter, -⟩ := hrule.node_pairs.exists_elements
      hrule.l_wellFormed.nodes_indexed hrule.r_wellFormed.nodes_indexed hright
    cases hnode.symm.trans hafter
    have hkey : rule.l.hasNode lKey = true := Graph.hasNode_iff.2 ⟨before, hbefore⟩
    obtain ⟨image, himage, -⟩ := (RuleOption.fits_of_occurs hmatch.occurs).node lKey hkey hpositive
    obtain ⟨before', given, hbefore', hgiven, hsuits⟩ :=
      hmatch.occurs.suits _ _ (Assignment.image?_node.2 himage)
    cases hbefore.symm.trans hbefore'
    refine ⟨image, _, (Correspondence.placeIn_of_left? hleft).trans himage,
      h.replaced.nodes.get?_of_fate hgiven
        (rule.nodeFate_image hdistinct hbefore hright hnode himage given), fun label hlabel => ?_⟩
    rw [GrammarRule.toAttributes_nodeMoves]
    exact LabelSet.mem_moveAlong (hsuits.met.labels.subset (hlabels.node lKey hkey hpositive))
      hlabel

variable (hshared : rule.KeepsShared)

include hshared

omit hlabels hdistinct hmatch h in
/-- Nodes of one name in L and R are a pair. -/
theorem right?_of_nodeName {lKey rKey : NodeKey} {name : Name}
    (hl : rule.l.nodeName? (some lKey) = some name)
    (hr : rule.r.nodeName? (some rKey) = some name) :
    rule.contextNodes.right? lKey = some rKey := by
  obtain ⟨before, hbefore, rfl⟩ := Option.map_eq_some_iff.1 hl
  obtain ⟨after, hafter, hname⟩ := Option.map_eq_some_iff.1 hr
  have hlFind : rule.l.nodes.find? before.name = some lKey :=
    hrule.l_wellFormed.nodes_indexed.find?_eq_some hbefore
  have hrFind : rule.r.nodes.find? before.name = some rKey :=
    hname ▸ hrule.r_wellFormed.nodes_indexed.find?_eq_some hafter
  refine (hrule.node_pairs.right?_iff lKey rKey).2 ⟨before.name, hshared before.name ?_ ?_,
    hlFind, hrFind⟩
  · exact NameMap.contains_iff.2 ⟨lKey, hlFind⟩
  · exact NameMap.contains_iff.2 ⟨rKey, hrFind⟩

omit hlabels hmatch h in
/-- A node of R that bears the name of a node of L is at the image of that, and
the image is kept. -/
theorem placeAt_of_nodeName (host : Graph) {lKey rKey image : NodeKey} {name : Name}
    (hl : rule.l.nodeName? (some lKey) = some name)
    (hr : rule.r.nodeName? (some rKey) = some name) (himage : o.node? lKey = some image) :
    rule.placeAt host o.toAssignment rKey = some image ∧
      image ∉ rule.goneNodes o.toAssignment :=
  rule.placeAt_of_right? hrule hdistinct (right?_of_nodeName hrule hshared hl hr) himage

omit hlabels in
/-- **The ends of a context arc of R are found at the places of their nodes.** Where L and R name
the end alike it is not touched, and it stands at the image of the node of L, which is the place
of the node of R as they share the node. Elsewhere it is put there. -/
theorem exists_atEnd_of_brought {lKey image : ArcKey} {before after given : Arc}
    (hbefore : rule.l.arc? lKey = some before) (himage : o.arc? lKey = some image)
    (hgiven : host.arc? image = some given)
    (hsuits : rule.ArcSuits o.toAssignment lKey before given) {e : ArcEnd} {node : NodeKey}
    (hnode : rule.r.hasNode node = true) (hend : after.atEnd e = some node) :
    let reversed := (Update.reversedArcs host rule o).contains lKey
    ∃ place, rule.placeAt host o.toAssignment node = some place ∧
      (Update.broughtArc rule (rule.placeAt host o.toAssignment) before after reversed
        (given.without (rule.goneNodes o.toAssignment))).atEnd
          (if reversed && !after.isOriented then e.opposite else e) = some place := by
  intro reversed
  rw [Update.atEnd_broughtArc, hend]
  split
  · -- L and R name the end alike, so it stays at the image of its node
    rename_i hname
    obtain ⟨name, hr⟩ := Graph.exists_nodeName hnode
    rw [hr] at hname
    cases hbeforeEnd : before.atEnd e with
    | none =>
      rw [hbeforeEnd] at hname
      exact nomatch hname
    | some lNode =>
      rw [hbeforeEnd] at hname
      obtain ⟨place, hplace, hat⟩ :=
        Update.atEnd_image_of_suits hbefore himage hgiven hsuits e lNode hbeforeEnd
      obtain ⟨hplaceAt, hkept⟩ := placeAt_of_nodeName hrule hdistinct hshared host hname hr
        hplace
      refine ⟨place, hplaceAt, ?_⟩
      rw [Arc.atEnd_without, hat]
      simp [Option.filter, hkept]
  · obtain ⟨place, hplace⟩ := h.exists_placeAt hrule (RuleOption.fits_of_occurs hmatch.occurs) hnode
    exact ⟨place, hplace, hplace⟩

/-- **An arc of R is found** with its labels, directed if R orients it, and with its ends where
their nodes are. A new arc lies along itself. The image of a context arc may lie back to front,
and then it is found back to front if R does not orient it, and turned around otherwise. -/
theorem arc_found {key : ArcKey} {arc : Arc} (harc : rule.r.arc? key = some arc) :
    ∃ image given, (rule.comatch o.toAssignment done.report).arc? key = some image ∧
      done.host.arc? image = some given ∧
      (∀ label ∈ arc.labels.toList, label ∈ given.labels.toList) ∧
      (arc.isOriented = true → given.directed = true) ∧
      ∃ backToFront : Bool, (backToFront = true → arc.isOriented = false ∨
          given.doublyDirected = true) ∧
        ∀ e node, arc.atEnd e = some node → ∃ place,
          (rule.comatch o.toAssignment done.report).node? node = some place ∧
          given.atEnd (if backToFront then e.opposite else e) = some place := by
  have halive : ∀ e node, arc.atEnd e = some node → rule.r.hasNode node = true := fun e node hend =>
    hrule.r_wellFormed.ends_alive key arc harc node (Arc.mem_ends_iff_atEnd.2 ⟨e, hend⟩)
  rw [h.comatch_arc? hrule (Registry.contains_iff.2 ⟨arc, harc⟩)]
  cases hleft : rule.contextArcs.left? key with
  | none =>
    obtain ⟨place, name, hplace, hnew, hgiven⟩ :=
      h.replaced.arcs.exists_of_fresh (g := (·.mapEnds (rule.placeAt host o.toAssignment)))
        o.arc? harc
        hleft
    refine ⟨place, _, hplace, h.arc?_of_added hnew hgiven, fun _ hlabel => hlabel,
      fun horiented => (Bool.and_eq_true_iff.1 horiented).1, false, nofun, fun e node hend => ?_⟩
    obtain ⟨at', hat⟩ :=
      h.exists_placeAt hrule (RuleOption.fits_of_occurs hmatch.occurs) (halive e node hend)
    refine ⟨at', (h.comatch_node? hrule (halive e node hend)).trans hat, ?_⟩
    have hmap : ∀ name, (renamed (arc.mapEnds (rule.placeAt host o.toAssignment)) name).atEnd e
        = (arc.atEnd e).bind (rule.placeAt host o.toAssignment) := by
      intro name
      cases e <;> rfl
    exact (hmap name).trans (by rw [hend]; exact hat)
  | some lKey =>
    have hright := (hrule.arc_pairs.left?_iff lKey key).1 hleft
    have hpositive := hrule.positive_arcs lKey key hright
    obtain ⟨before, _, hbefore, hafter, -⟩ := hrule.arc_pairs.exists_elements
      hrule.l_wellFormed.arcs_indexed hrule.r_wellFormed.arcs_indexed hright
    cases harc.symm.trans hafter
    obtain ⟨image, _, himage, -⟩ :=
      (RuleOption.fits_of_occurs hmatch.occurs).arc lKey before hbefore hpositive
    obtain ⟨before', given, hbefore', hgiven, hsuits⟩ :=
      hmatch.occurs.suits _ _ (Assignment.image?_arc.2 himage)
    cases hbefore.symm.trans hbefore'
    have hbrought := h.arc?_of_image (Assignment.mem_arcImages.2 ⟨lKey, himage⟩)
      (h.replaced.arcs.get?_of_fate hgiven
        (rule.arcFate_image hdistinct hbefore hright harc himage given))
    -- only the ends differ from the image moved along, so labels and direction carry over
    obtain ⟨_, _, heq⟩ := Update.exists_broughtArc_eq rule
      (rule.placeAt host o.toAssignment) before arc
      ((Update.reversedArcs host rule o).contains lKey)
      (given.without (rule.goneNodes o.toAssignment))
    refine ⟨image, _, (Correspondence.placeIn_of_left? hleft).trans himage, hbrought, ?_, ?_,
      (Update.reversedArcs host rule o).contains lKey && !arc.isOriented, ?_,
      fun e node hend => ?_⟩
    · rw [heq, Arc.labels_moveAlong]
      intro label hlabel
      exact LabelSet.mem_moveAlong (hsuits.met.labels.subset
        (hlabels.arc lKey (Registry.contains_iff.2 ⟨before, hbefore⟩) hpositive)) hlabel
    · rw [heq]
      exact Arc.directed_moveAlong hsuits.directed
    · intro hturn
      rw [Bool.and_eq_true, Bool.not_eq_true'] at hturn
      exact .inl hturn.2
    · obtain ⟨place, hplace, hat⟩ := h.exists_atEnd_of_brought hrule hdistinct hmatch hshared
        hbefore himage hgiven hsuits (halive e node hend) hend
      exact ⟨place, (h.comatch_node? hrule (halive e node hend)).trans hplace, hat⟩

/-- **A hyperarc of R is found** with its labels and its members. A member that L names as well
stays, and one that only R names comes. -/
theorem hyperarc_found {key : HyperArcKey} {hyperarc : HyperArc}
    (hhyperarc : rule.r.hyperarc? key = some hyperarc) :
    ∃ image given, (rule.comatch o.toAssignment done.report).hyperarc? key = some image ∧
      done.host.hyperarc? image = some given ∧
      (∀ label ∈ hyperarc.labels.toList, label ∈ given.labels.toList) ∧
      ∀ node ∈ hyperarc.members, ∃ place,
        (rule.comatch o.toAssignment done.report).node? node = some place ∧
        place ∈ given.members := by
  have hfits := RuleOption.fits_of_occurs hmatch.occurs
  have halive := hrule.r_wellFormed.members_alive key hyperarc hhyperarc
  have hdone : ∀ image, done.host.hyperarc? image = d.host.hyperarc? image := fun image =>
    congrArg (Registry.get? · image) h.reattaches.hyperarcs
  simp only [h.comatch_hyperarc? hrule (Registry.contains_iff.2 ⟨hyperarc, hhyperarc⟩), hdone]
  cases hleft : rule.contextHyperArcs.left? key with
  | none =>
    obtain ⟨place, name, hplace, -, hgiven⟩ :=
      h.replaced.hyperarcs.exists_of_fresh
        (g := (·.mapMembers (rule.placeAt host o.toAssignment))) o.hyperarc? hhyperarc hleft
    refine ⟨place, _, hplace, hgiven, fun _ hlabel => hlabel, fun node hnode => ?_⟩
    obtain ⟨at', hat⟩ := h.exists_placeAt hrule hfits (halive node hnode)
    exact ⟨at', (h.comatch_node? hrule (halive node hnode)).trans hat,
      List.mem_filterMap.2 ⟨node, hnode, hat⟩⟩
  | some lKey =>
    have hright := (hrule.hyperarc_pairs.left?_iff lKey key).1 hleft
    have hpositive := hrule.positive_hyperarcs lKey key hright
    obtain ⟨before, _, hbefore, hafter, -⟩ := hrule.hyperarc_pairs.exists_elements
      hrule.l_wellFormed.hyperarcs_indexed hrule.r_wellFormed.hyperarcs_indexed hright
    cases hhyperarc.symm.trans hafter
    obtain ⟨image, _, himage, -⟩ := hfits.hyperarc lKey before hbefore hpositive
    obtain ⟨before', given, hbefore', hgiven, hsuits⟩ :=
      hmatch.occurs.suits _ _ (Assignment.image?_hyperarc.2 himage)
    cases hbefore.symm.trans hbefore'
    refine ⟨image, _, (Correspondence.placeIn_of_left? hleft).trans himage,
      h.replaced.hyperarcs.get?_of_fate hgiven
        (rule.hyperarcFate_image hdistinct hbefore hright hhyperarc himage given),
      fun label hlabel => ?_, fun node hnode => ?_⟩
    · rw [Update.toAttributes_broughtHyperArc]
      exact LabelSet.mem_moveAlong (hsuits.met.labels.subset
        (hlabels.hyperarc lKey (Registry.contains_iff.2 ⟨before, hbefore⟩) hpositive)) hlabel
    · rw [h.comatch_node? hrule (halive node hnode)]
      simp only [Update.mem_broughtHyperArc]
      by_cases hcoming : node ∈ Update.comingMembers rule before hyperarc
      · obtain ⟨place, hplace⟩ := h.exists_placeAt hrule hfits (halive node hnode)
        exact ⟨place, hplace, .inr (List.mem_filterMap.2 ⟨node, hcoming, hplace⟩)⟩
      · -- L names the member too, so its image is a member that does not leave
        obtain ⟨lNode, hlNode, hname⟩ : ∃ lNode ∈ before.members,
            rule.l.nodeName? (some lNode) = rule.r.nodeName? (some node) :=
          not_not.1 fun hnone => hcoming (Update.mem_comingMembers.2 ⟨hnode, hnone⟩)
        obtain ⟨name, hr⟩ := Graph.exists_nodeName (halive node hnode)
        obtain ⟨place, hplace, hmember⟩ := hsuits.members lNode hlNode
        obtain ⟨hplaceAt, hkept⟩ := placeAt_of_nodeName hrule hdistinct hshared host
          (hname.trans hr) hr hplace
        refine ⟨place, hplaceAt, .inl ⟨HyperArc.mem_without.2 ⟨hmember, hkept⟩, fun hleaves => ?_⟩⟩
        obtain ⟨other, hother, hotherPlace⟩ := List.mem_filterMap.1 hleaves
        cases hdistinct.node_inj hplace hotherPlace
        exact (Update.mem_leavingMembers.1 hother).2 ⟨node, hnode, hname.symm⟩

omit hlabels hshared hmatch hdistinct hrule in
/-- The global labels of R are there. -/
theorem globalLabels_found
    (hstart : o.globalLabelStart ∈ globalLabelStarts rule host.globalLabels) :
    ∀ label ∈ rule.r.globalLabels.toList, label ∈ done.host.globalLabels.toList := by
  intro label hlabel
  have hpresent : ∀ label ∈ rule.l.globalLabels.toList, label ∈ host.globalLabels.toList := by
    have hrun := (globalLabelStarts_ne_nil_iff.1 (List.ne_nil_of_mem hstart)).2.1
    split at hrun
    · exact fun label hmem => hrun.subset hmem
    · exact hrun
  rw [h.reattaches.globals.labels, h.replaced.globals.labels]
  unfold Update.updateGlobals
  dsimp only
  split
  · unfold LabelSet.replaceRun
    dsimp only
    split
    · simp [LabelSet.mem_ofList, hlabel]
    · simp [LabelSet.mem_ofList, hlabel]
  · exact LabelSet.mem_moveAlong hpresent hlabel

end Applied

/-! ## The comatch is recognized

With this the comatch is a match of the pattern that R is, and recognition, being exact, lists
it. -/

/-- **After an application, R is there.** For a rule that was built, keeps the
nodes that its sides share and carries its labels, every option that is
recognized can be applied. In the host it leaves, the comatch is among the
options of a rule whose L is the R of this one. -/
theorem comatch_recognized {draft : RuleDraft} {limits : Limits} (hhost : host.WellFormed)
    (hdraft : draft.MembersDistinct) (hbuild : draft.build = .ok rule)
    (hshared : draft.k = none ∨ rule.KeepsShared) (hlabels : rule.CarriesLabels)
    (ho : o ∈ (recognize host rule limits).options) :
    ∃ report pattern, (apply host rule o).result = .ok report ∧
      ({ l := rule.r } : RuleDraft).build = .ok pattern ∧ pattern.l = rule.r ∧
      rule.comatch o.toAssignment report ∈
        (recognize (apply host rule o).host pattern {}).options.map (·.toAssignment) := by
  obtain ⟨hrule, hderived⟩ := RuleDraft.coherent_of_build hdraft hbuild
  have hshared : rule.KeepsShared := hshared.elim hderived id
  obtain ⟨hmatch, hstart⟩ := matches_of_mem_options hhost hrule ho
  have hdistinct := hmatch.occurs.distinct
  have hfits := RuleOption.fits_of_occurs hmatch.occurs
  obtain ⟨d, done, free, happly, h⟩ := apply_of_fits hhost hrule hdistinct hfits
  rw [happly]
  refine ⟨done.report, .ofPattern rule.r, rfl,
    build_ofPattern hrule.r_compact hrule.r_wellFormed, rfl, ?_⟩
  refine mem_options_ofPattern h.reattaches.wellFormed hrule.r_compact hrule.r_wellFormed ?_
    (h.globalLabels_found hstart)
  constructor
  · exact ⟨(List.length_map _).trans hrule.r_compact.nodes.length_keys,
      (List.length_map _).trans hrule.r_compact.arcs.length_keys,
      (List.length_map _).trans hrule.r_compact.hyperarcs.length_keys⟩
  · exact h.comatch_distinct hrule hfits hdistinct
  · exact fun key node hnode => h.node_found hrule hdistinct hmatch hlabels hnode
  · exact fun key arc harc => h.arc_found hrule hdistinct hmatch hlabels hshared harc
  · exact fun key hyperarc hhyperarc =>
      h.hyperarc_found hrule hdistinct hmatch hlabels hshared hhyperarc

end

/-- The rule that gives an edge a direction. -/
def GrammarRule.orientEdge : GrammarRule where
  name := "orient edge"
  l := .edge false
  k := .edge false
  r := .edge true
  nodeConditions := [{}, {}]
  arcConditions := [{}]
  hyperarcConditions := []
  contextNodes := (Correspondence.empty.insert ⟨0⟩ ⟨0⟩).insert ⟨1⟩ ⟨1⟩
  contextArcs := Correspondence.empty.insert ⟨0⟩ ⟨0⟩
  contextHyperArcs := .empty

/-- An edge that was met back to front is turned around when it is given a
direction, and points from the second node to the first. -/
theorem comatch_recognized_orientEdge :
    ∃ o report, o ∈ (recognize (.edge false) .orientEdge {}).options ∧
      o.toAssignment = ⟨[some ⟨1⟩, some ⟨0⟩], [some ⟨0⟩], []⟩ ∧
      (apply (.edge false) .orientEdge o).result = .ok report ∧
      ∃ pattern, ({ l := .edge true } : RuleDraft).build = .ok pattern ∧
        (⟨[some ⟨1⟩, some ⟨0⟩], [some ⟨0⟩], []⟩ : Assignment) ∈
          (recognize (apply (.edge false) .orientEdge o).host pattern {}).options.map
            (·.toAssignment) := by
  have hlength : 1 < (recognize (.edge false) .orientEdge {}).options.length := by decide +kernel
  have hmem := List.getElem_mem hlength
  have hdraft : ({ name := "orient edge", l := .edge false, r := .edge true } :
      RuleDraft).MembersDistinct :=
    ⟨Graph.membersDistinct_of_no_hyperarcs rfl, Graph.membersDistinct_of_no_hyperarcs rfl, nofun⟩
  have hbuild : ({ name := "orient edge", l := .edge false, r := .edge true } : RuleDraft).build
      = .ok .orientEdge := by rfl
  have hlabels : GrammarRule.orientEdge.CarriesLabels := by
    refine ⟨fun ⟨i⟩ _ _ => ?_, fun ⟨i⟩ _ _ => ?_, fun _ h => nomatch h⟩
    · rcases i with _ | _ | i <;> exact nofun
    · rcases i with _ | i <;> exact nofun
  obtain ⟨report, pattern, hresult, hpattern, -, hfound⟩ := comatch_recognized
    (Graph.edge_wellFormed false) hdraft hbuild (.inl rfl) hlabels hmem
  refine ⟨_, report, hmem, ?_, hresult, pattern, hpattern, ?_⟩
  · rfl
  · exact hfound

end GraphGrammar
