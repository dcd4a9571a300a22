import GraphGrammar.Application.Update
import GraphGrammar.Proofs.Rewriting

/-!
# Bringing the context along changes one element per pair

The context is brought from L to R by edits that could be refused, one after
another. Here they are shown to succeed as long as the images are alive, and to
come to one change of one element for each pair of the context: `broughtArc`
and `broughtHyperArc` are these changes as functions of the element, with no
host in sight. Nodes for R are told by a function `place`, so that what is
brought to R can be compared for one host and another.

The changes are functions of the element that is found there, and of nothing else in the host. So
they are the same changes whether the update is done in the host as it was or after a deletion,
and fates can be put together from them.
-/

namespace GraphGrammar

open Attributed

/-! ## Pairs of the context

A pair is an element of L with its counterpart in R. The update goes through the pairs in the
order of L. -/

section Pairs

variable {κ : Kind} {α : Type}

/-- The elements of L with a counterpart, with both. Elements outside the context are in no pair.
-/
def pairsOf (l r : Registry κ α) (c : Correspondence (Key κ) (Key κ)) : List (Key κ × α × α) :=
  l.entries.filterMap fun (key, before) =>
    ((c.right? key).bind r.get?).map fun after => (key, before, after)

variable {l r : Registry κ α} {c : Correspondence (Key κ) (Key κ)}

/-- A pair is an element of L, with the element of R that it corresponds to. -/
theorem mem_pairsOf {key : Key κ} {before after : α} :
    (key, before, after) ∈ pairsOf l r c ↔ l.get? key = some before ∧
      ∃ rKey, c.right? key = some rKey ∧ r.get? rKey = some after := by
  unfold pairsOf
  rw [List.mem_filterMap]
  constructor
  · rintro ⟨⟨key', before'⟩, hentry, heq⟩
    obtain ⟨after', hafter, heq⟩ := Option.map_eq_some_iff.1 heq
    cases heq
    obtain ⟨rKey, hright, hafter⟩ := Option.bind_eq_some_iff.1 hafter
    exact ⟨Registry.mem_entries_iff.1 hentry, rKey, hright, hafter⟩
  · rintro ⟨hbefore, rKey, hright, hafter⟩
    refine ⟨(key, before), Registry.mem_entries_iff.2 hbefore, ?_⟩
    show ((c.right? key).bind r.get?).map _ = _
    rw [hright, Option.bind_some, hafter]
    rfl

/-- No element of L is in two pairs. -/
theorem nodup_pairsOf : ((pairsOf l r c).map Prod.fst).Nodup := by
  have hkeys : (pairsOf l r c).map Prod.fst
      = l.keys.filter fun key => ((c.right? key).bind r.get?).isSome := by
    unfold pairsOf Registry.keys
    rw [List.map_filterMap, List.filter_map, ← List.filterMap_eq_map, ← List.filterMap_eq_filter,
      List.filterMap_filterMap]
    refine List.filterMap_congr fun entry _ => ?_
    cases h : (c.right? entry.1).bind r.get? with
    | none => simp [Option.guard, h]
    | some after => simp [Option.guard, h]
  rw [hkeys]
  exact l.nodup_keys.filter _

end Pairs

/-! ## What is brought

For an arc it is which ends are rewritten, and whether the arc is turned around first. For a
hyperarc it is which members leave and which come. In both cases names decide: what L and R name
alike is not touched. -/

/-- The arc the other way round. -/
def Arc.turned (arc : Arc) : Arc := { arc with source := arc.target, target := arc.source }

namespace Update

variable {rule : GrammarRule} {o : RuleOption} {place : NodeKey → Option NodeKey}

/-- An arc whose end is elsewhere if L and R name different nodes there. -/
def reconnectedArc (rule : GrammarRule) (place : NodeKey → Option NodeKey) (before after : Arc)
    (backToFront : Bool) (arc : Arc) (e : ArcEnd) : Arc :=
  if rule.l.nodeName? (before.atEnd e) = rule.r.nodeName? (after.atEnd e) then arc
  else arc.withEnd (if backToFront then e.opposite else e) ((after.atEnd e).bind place)

/-- **The image of a context arc, brought from L to R.** First it is turned around if it was met
back to front and R orients it, then its ends are reconnected, and then its attributes are moved
along. -/
def broughtArc (rule : GrammarRule) (place : NodeKey → Option NodeKey) (before after : Arc)
    (backToFront : Bool) (arc : Arc) : Arc :=
  let turn := backToFront && after.isOriented
  (ArcEnd.both.foldl (reconnectedArc rule place before after (backToFront && !turn))
    (if turn then arc.turned else arc)).moveAlong before after

/-- The members of a hyperarc of L that R does not name. -/
def leavingMembers (rule : GrammarRule) (before after : HyperArc) : List NodeKey :=
  before.members.filter fun m =>
    !(after.members.map fun m => rule.r.nodeName? (some m)).contains (rule.l.nodeName? (some m))

/-- The members of a hyperarc of R that L does not name. -/
def comingMembers (rule : GrammarRule) (before after : HyperArc) : List NodeKey :=
  after.members.filter fun m =>
    !(before.members.map fun m => rule.l.nodeName? (some m)).contains (rule.r.nodeName? (some m))

/-- A member leaves if R has no member of its name. -/
theorem mem_leavingMembers {before after : HyperArc} {m : NodeKey} :
    m ∈ leavingMembers rule before after ↔ m ∈ before.members ∧
      ¬ ∃ n ∈ after.members, rule.r.nodeName? (some n) = rule.l.nodeName? (some m) := by
  rw [← List.mem_map (f := fun n => rule.r.nodeName? (some n))]
  simp [leavingMembers]

/-- A member comes if L has no member of its name. -/
theorem mem_comingMembers {before after : HyperArc} {m : NodeKey} :
    m ∈ comingMembers rule before after ↔ m ∈ after.members ∧
      ¬ ∃ n ∈ before.members, rule.l.nodeName? (some n) = rule.r.nodeName? (some m) := by
  rw [← List.mem_map (f := fun n => rule.l.nodeName? (some n))]
  simp [comingMembers]

/-- **The image of a context hyperarc, brought from L to R.** Members leave first and come then,
so that a member that leaves under one name may come back under another. -/
def broughtHyperArc (rule : GrammarRule) (o : RuleOption) (place : NodeKey → Option NodeKey)
    (before after hyperarc : HyperArc) : HyperArc :=
  let left := ((leavingMembers rule before after).filterMap o.node?).foldl HyperArc.detach hyperarc
  let joined := ((comingMembers rule before after).filterMap place).foldl HyperArc.attach left
  Attributed.moveAlong joined before after

/-! ## Names stay

No change that an update makes renames an element. This is what keeps the indices of the host in
order throughout. -/

/-- Moving along does not rename an element. -/
theorem nameOf_moveAlong {α : Type} [Attributed α] (a before after : α) :
    nameOf (Attributed.moveAlong a before after) = nameOf a := by
  unfold Attributed.moveAlong nameOf
  rw [attributes_withAttributes]
  rfl

/-- Moving along does not rename an arc. -/
theorem nameOf_arc_moveAlong (arc before after : Arc) :
    nameOf (arc.moveAlong before after) = nameOf arc := by
  unfold Arc.moveAlong
  dsimp only
  split
  · exact nameOf_moveAlong arc before after
  · exact nameOf_moveAlong arc before after

/-- Moving along does not touch the ends. -/
theorem ends_arc_moveAlong (arc before after : Arc) :
    (arc.moveAlong before after).ends = arc.ends := by
  unfold Arc.moveAlong
  dsimp only
  split <;> rfl

/-- Reconnecting does not rename an arc. -/
theorem nameOf_reconnectedArc (before after : Arc) (backToFront : Bool) (arc : Arc) (e : ArcEnd) :
    nameOf (reconnectedArc rule place before after backToFront arc e) = nameOf arc := by
  unfold reconnectedArc
  split
  · rfl
  · exact Arc.nameOf_withEnd ..

/-- Bringing an arc to R does not rename it. -/
theorem nameOf_broughtArc (before after : Arc) (backToFront : Bool) (arc : Arc) :
    nameOf (broughtArc rule place before after backToFront arc) = nameOf arc := by
  refine (nameOf_arc_moveAlong _ before after).trans ?_
  show nameOf (reconnectedArc rule place before after _
    (reconnectedArc rule place before after _ _ _) _) = _
  rw [nameOf_reconnectedArc, nameOf_reconnectedArc]
  split <;> rfl

/-- An end that is brought is an end of the arc or the place of a node of R. -/
theorem mem_ends_reconnectedArc {before after : Arc} {backToFront : Bool} {arc : Arc} {e : ArcEnd}
    {node : NodeKey}
    (h : node ∈ (reconnectedArc rule place before after backToFront arc e).ends) :
    node ∈ arc.ends ∨ ∃ m, place m = some node := by
  unfold reconnectedArc at h
  split at h
  · exact .inl h
  · obtain ⟨f, hf⟩ := Arc.mem_ends_iff_atEnd.1 h
    generalize (if backToFront = true then e.opposite else e) = changed at hf
    rw [Arc.atEnd_withEnd] at hf
    split at hf
    · obtain ⟨m, -, hm⟩ := Option.bind_eq_some_iff.1 hf
      exact .inr ⟨m, hm⟩
    · exact .inl (Arc.mem_ends_iff_atEnd.2 ⟨f, hf⟩)

/-- The ends that an arc has once it was brought are ends that it had or places of nodes of R. -/
theorem mem_ends_broughtArc {before after : Arc} {backToFront : Bool} {arc : Arc}
    {node : NodeKey} (h : node ∈ (broughtArc rule place before after backToFront arc).ends) :
    node ∈ arc.ends ∨ ∃ m, place m = some node := by
  unfold broughtArc at h
  rw [ends_arc_moveAlong] at h
  have halign : ∀ turn : Bool, node ∈ (if turn then arc.turned else arc).ends →
      node ∈ arc.ends := by
    intro turn hmem
    cases turn with
    | false => exact hmem
    | true => exact Arc.mem_ends.2 (Arc.mem_ends.1 hmem).symm
  rcases mem_ends_reconnectedArc h with h | h
  · exact (mem_ends_reconnectedArc h).imp_left (halign _)
  · exact .inr h

/-! ## Nodes

Nodes are changed twice in an application, their attributes first and their positions after the
additions. Both are passes over the same pairs. -/

section Nodes

/-- The changes of the images of context nodes. -/
def nodeChanges (rule : GrammarRule) (o : RuleOption) (f : Node → Node → Node → Node) :
    List (NodeKey × (Node → Node)) :=
  Registry.changesOf rule.nodePairs o.node? fun _ before after => f before after

/-- Changing the images of nodes one after another changes the nodes of the
host and nothing else. -/
theorem foldl_modifyNode (f : Node → Node → Node → Node) (pairs : List (NodeKey × Node × Node)) :
    ∀ g : Graph,
      pairs.foldl (fun g (key, before, after) =>
        match o.node? key with
        | none => g
        | some image => g.modifyNode image (f before after)) g
      = { g with
          nodes := g.nodes.modifyAll
            (Registry.changesOf pairs o.node? fun _ before after => f before after) } := by
  induction pairs with
  | nil => exact fun _ => rfl
  | cons pair rest ih =>
    intro g
    obtain ⟨key, before, after⟩ := pair
    rw [List.foldl_cons, ih]
    cases himage : o.node? key <;>
      simp [Registry.changesOf, Registry.modifyAll_cons, himage, Graph.modifyNode]

/-- The first update changes the attributes of the images of context nodes. -/
theorem updateNodes_eq (g : Graph) :
    updateNodes rule o g = { g with
      nodes := g.nodes.modifyAll (nodeChanges rule o fun before after node =>
        Attributed.moveAlong node before after) } :=
  foldl_modifyNode (fun before after node => Attributed.moveAlong node before after)
    rule.nodePairs g

/-- The second one changes their positions, if nodes are to move. -/
theorem moveNodes_eq (g : Graph) :
    moveNodes rule o g = { g with
      nodes := g.nodes.modifyAll (nodeChanges rule o fun before after =>
        moveNode o.positionTransform before.position after.position) } :=
  foldl_modifyNode (fun before after =>
    moveNode o.positionTransform before.position after.position) rule.nodePairs g

/-- Changes that leave names alone keep a graph well formed. -/
theorem wellFormed_modifyAll (changes : List (NodeKey × (Node → Node)))
    (hnames : ∀ change ∈ changes, ∀ node, nameOf (change.2 node) = nameOf node) :
    ∀ {g : Graph}, g.WellFormed →
      ({ g with nodes := g.nodes.modifyAll changes } : Graph).WellFormed := by
  induction changes with
  | nil => exact fun hg => hg
  | cons change rest ih =>
    intro g hg
    exact ih (fun other hother => hnames other (List.mem_cons_of_mem _ hother))
      (hg.modifyNode (hnames change List.mem_cons_self))

/-- Changes of nodes that rename none keep the host well formed. -/
theorem wellFormed_nodeChanges {f : Node → Node → Node → Node} {g : Graph}
    (hf : ∀ before after node, nameOf (f before after node) = nameOf node) (hg : g.WellFormed) :
    ({ g with nodes := g.nodes.modifyAll (nodeChanges rule o f) } : Graph).WellFormed := by
  refine wellFormed_modifyAll _ (fun change hchange node => ?_) hg
  obtain ⟨_, before, after, -, -, heq⟩ := Registry.mem_changesOf.1 hchange
  rw [← heq]
  exact hf before after node

end Nodes

/-! ## Arcs

An arc is updated by up to four edits: it may be turned around, each of its ends may be set, and
its attributes are changed. The edits are of one arc, so together they are one change of it. -/

section Arcs

variable {images : NodeImages} {reversed : List ArcKey} {g : Graph}

/-- An end is set if the arc and the node are there. -/
theorem setEnd_eq_ok {image : ArcKey} {node : Option NodeKey} (e : ArcEnd)
    (himage : g.arcs.contains image = true)
    (hnode : ∀ n, node = some n → g.hasNode n = true) :
    Derivation.setEnd g image e node = .ok (g.modifyArc image (·.withEnd e node)) := by
  unfold Derivation.setEnd Derivation.edit
  rw [Graph.setArcEnd_eq_ok e himage hnode]
  rfl

/-- An end is reconnected if the arc is there and the places of the nodes of R are alive. -/
theorem reconnectEnd_eq_ok {image : ArcKey} {before after : Arc} (backToFront : Bool) (e : ArcEnd)
    (himage : g.arcs.contains image = true)
    (hplace : ∀ m n, images.lookup m = some n → g.hasNode n = true) :
    reconnectEnd rule images image before after backToFront g e
      = .ok (g.modifyArc image fun arc =>
          reconnectedArc rule (images.lookup ·) before after backToFront arc e) := by
  unfold reconnectEnd reconnectedArc
  split
  · unfold Graph.modifyArc
    rw [Registry.modify_id]
  · refine setEnd_eq_ok _ himage fun n hn => ?_
    obtain ⟨m, -, hm⟩ := Option.bind_eq_some_iff.1 hn
    exact hplace m n hm

/-- Two changes of an arc are one. -/
theorem modifyArc_modifyArc (g : Graph) (image : ArcKey) (f f' : Arc → Arc) :
    (g.modifyArc image f).modifyArc image f' = g.modifyArc image (f' ∘ f) := by
  unfold Graph.modifyArc
  rw [Registry.modify_modify]

/-- A change leaves the arc where it is. -/
theorem contains_modifyArc {image : ArcKey} (f : Arc → Arc)
    (h : g.arcs.contains image = true) : (g.modifyArc image f).arcs.contains image = true :=
  (Registry.contains_modify ..).trans h

/-- Reconnecting both ends and changing the attributes, once an arc lies the
way it should. -/
theorem reconnect_eq_ok {image : ArcKey} (before after : Arc) (backToFront : Bool)
    (halive : g.arcs.contains image = true)
    (hplace : ∀ m n, images.lookup m = some n → g.hasNode n = true) :
    (do
      let reconnected ←
        ArcEnd.both.foldlM (reconnectEnd rule images image before after backToFront) g
      return reconnected.modifyArc image (·.moveAlong before after) : Except Interrupted Graph)
      = .ok (g.modifyArc image fun arc =>
          (ArcEnd.both.foldl (reconnectedArc rule (images.lookup ·) before after backToFront)
            arc).moveAlong before after) := by
  unfold ArcEnd.both
  rw [List.foldlM_cons, reconnectEnd_eq_ok backToFront .source halive hplace]
  show (List.foldlM _ (g.modifyArc image _) [ArcEnd.target] >>= _) = _
  rw [List.foldlM_cons,
    reconnectEnd_eq_ok backToFront .target (contains_modifyArc _ halive) hplace]
  show Except.ok (((g.modifyArc image _).modifyArc image _).modifyArc image _) = _
  rw [modifyArc_modifyArc, modifyArc_modifyArc]
  rfl

/-- **An image is brought from L to R by one change.** Every end that is written is at a node
that is alive: one that the image had, or the place of a node of R. -/
theorem updateArc_eq_ok (hg : g.WellFormed)
    (hplace : ∀ m n, images.lookup m = some n → g.hasNode n = true) {key image : ArcKey}
    {before after : Arc} (himage : o.arc? key = some image)
    (halive : g.arcs.contains image = true) :
    updateArc rule o images reversed g (key, before, after)
      = .ok (g.modifyArc image
          (broughtArc rule (images.lookup ·) before after (reversed.contains key))) := by
  obtain ⟨given, hgiven⟩ : ∃ given, g.arc? image = some given := Registry.contains_iff.1 halive
  have hsource : ∀ n, given.source = some n → g.hasNode n = true := fun n hn =>
    hg.ends_alive image given hgiven n (Arc.mem_ends.2 (.inl hn))
  have htarget : ∀ n, given.target = some n → g.hasNode n = true := fun n hn =>
    hg.ends_alive image given hgiven n (Arc.mem_ends.2 (.inr hn))
  unfold updateArc broughtArc
  dsimp only
  rw [himage]
  dsimp only
  rw [hgiven]
  dsimp only
  cases reversed.contains key && after.isOriented with
  | false => exact reconnect_eq_ok before after _ halive hplace
  | true =>
    -- the ends are exchanged one after the other, by the nodes they had before
    rw [if_pos rfl, setEnd_eq_ok .source halive htarget]
    show (Derivation.setEnd (g.modifyArc image _) image .target given.source >>= _) = _
    rw [setEnd_eq_ok .target (contains_modifyArc _ halive) hsource]
    refine (reconnect_eq_ok before after _ (contains_modifyArc _ (contains_modifyArc _ halive))
      hplace).trans ?_
    rw [modifyArc_modifyArc, modifyArc_modifyArc]
    refine congrArg Except.ok ?_
    unfold Graph.modifyArc
    rw [Registry.modify_congr fun arc harc => ?_]
    cases hgiven.symm.trans harc
    rfl

/-- The changes of the images of context arcs. -/
def arcChanges (rule : GrammarRule) (o : RuleOption) (place : NodeKey → Option NodeKey)
    (reversed : List ArcKey) (pairs : List (ArcKey × Arc × Arc)) : List (ArcKey × (Arc → Arc)) :=
  Registry.changesOf pairs o.arc? fun key before after =>
    broughtArc rule place before after (reversed.contains key)

/-- **The arcs of the context are brought along by their changes**, and the host stays well
formed. No change gives up a slot, so the images that are still to be brought stay alive while
the others are brought. -/
theorem updateArc_foldlM (reversed : List ArcKey) (pairs : List (ArcKey × Arc × Arc)) :
    ∀ {g : Graph}, g.WellFormed → (∀ m n, images.lookup m = some n → g.hasNode n = true) →
      (∀ pair ∈ pairs, ∃ image, o.arc? pair.1 = some image ∧ g.arcs.contains image = true) →
      let arcs := g.arcs.modifyAll (arcChanges rule o (images.lookup ·) reversed pairs)
      pairs.foldlM (updateArc rule o images reversed) g = .ok { g with arcs } ∧
        ({ g with arcs } : Graph).WellFormed := by
  induction pairs with
  | nil => exact fun hg _ _ => ⟨rfl, hg⟩
  | cons pair rest ih =>
    intro g hg hplace halive
    obtain ⟨key, before, after⟩ := pair
    obtain ⟨image, himage, hcontains⟩ := halive _ List.mem_cons_self
    have himage : o.arc? key = some image := himage
    have hchanges : arcChanges rule o (images.lookup ·) reversed ((key, before, after) :: rest)
        = (image, broughtArc rule (images.lookup ·) before after (reversed.contains key))
          :: arcChanges rule o (images.lookup ·) reversed rest := by
      simp [arcChanges, Registry.changesOf, himage]
    rw [List.foldlM_cons, updateArc_eq_ok hg hplace himage hcontains, hchanges,
      Registry.modifyAll_cons]
    refine ih (hg.modifyArc fun arc harc => ⟨nameOf_broughtArc .., fun node hnode => ?_⟩) hplace
      fun pair hpair => ?_
    · rcases mem_ends_broughtArc hnode with hnode | ⟨m, hm⟩
      · exact hg.ends_alive image arc harc node hnode
      · exact hplace m node hm
    · obtain ⟨image', himage', hcontains'⟩ := halive pair (List.mem_cons_of_mem _ hpair)
      exact ⟨image', himage', (Registry.contains_modify ..).trans hcontains'⟩

end Arcs

/-! ## Hyperarcs

Members leave one after another, and then members come one after another. As in a set, it does
not matter for the outcome in which order either of these happens, but the list of members shows
it. -/

section HyperArcs

variable {images : NodeImages} {g : Graph}

/-- Members that leave take no attributes along. -/
theorem toAttributes_foldl_detach (nodes : List NodeKey) (hyperarc : HyperArc) :
    (nodes.foldl HyperArc.detach hyperarc).toAttributes = hyperarc.toAttributes := by
  induction nodes generalizing hyperarc with
  | nil => rfl
  | cons node rest ih => exact ih (hyperarc.detach node)

/-- Members that come bring no attributes. -/
theorem toAttributes_foldl_attach (nodes : List NodeKey) (hyperarc : HyperArc) :
    (nodes.foldl HyperArc.attach hyperarc).toAttributes = hyperarc.toAttributes := by
  induction nodes generalizing hyperarc with
  | nil => rfl
  | cons node rest ih =>
    refine (ih (hyperarc.attach node)).trans ?_
    unfold HyperArc.attach
    split <;> rfl

/-- The members that are left. -/
theorem mem_foldl_detach {nodes : List NodeKey} {hyperarc : HyperArc} {node : NodeKey} :
    node ∈ (nodes.foldl HyperArc.detach hyperarc).members ↔
      node ∈ hyperarc.members ∧ node ∉ nodes := by
  induction nodes generalizing hyperarc with
  | nil => simp
  | cons first rest ih =>
    rw [List.foldl_cons, ih, HyperArc.mem_detach, List.mem_cons, not_or, and_assoc]

/-- The members that were there and those that came. -/
theorem mem_foldl_attach {nodes : List NodeKey} {hyperarc : HyperArc} {node : NodeKey} :
    node ∈ (nodes.foldl HyperArc.attach hyperarc).members ↔
      node ∈ hyperarc.members ∨ node ∈ nodes := by
  induction nodes generalizing hyperarc with
  | nil => simp
  | cons first rest ih =>
    rw [List.foldl_cons, ih, HyperArc.mem_attach, List.mem_cons, or_assoc]

/-- No member is listed twice after some have left. -/
theorem nodup_foldl_detach {nodes : List NodeKey} {hyperarc : HyperArc}
    (h : hyperarc.members.Nodup) : (nodes.foldl HyperArc.detach hyperarc).members.Nodup := by
  induction nodes generalizing hyperarc with
  | nil => exact h
  | cons first rest ih => exact ih (HyperArc.nodup_detach h first)

/-- No member is listed twice after others have come, as one that is there is not put in again.
-/
theorem nodup_foldl_attach {nodes : List NodeKey} {hyperarc : HyperArc}
    (h : hyperarc.members.Nodup) : (nodes.foldl HyperArc.attach hyperarc).members.Nodup := by
  induction nodes generalizing hyperarc with
  | nil => exact h
  | cons first rest ih => exact ih (HyperArc.nodup_attach h first)

/-- The attributes of an image that is brought are moved along. -/
theorem toAttributes_broughtHyperArc (before after hyperarc : HyperArc) :
    (broughtHyperArc rule o place before after hyperarc).toAttributes
      = hyperarc.toAttributes.moveAlong before.toAttributes after.toAttributes := by
  show Attributes.moveAlong (HyperArc.toAttributes (List.foldl HyperArc.attach _ _)) _ _ = _
  rw [toAttributes_foldl_attach, toAttributes_foldl_detach]
  rfl

/-- Bringing a hyperarc to R does not rename it. -/
theorem nameOf_broughtHyperArc (before after hyperarc : HyperArc) :
    nameOf (broughtHyperArc rule o place before after hyperarc) = nameOf hyperarc :=
  (congrArg Attributes.name (toAttributes_broughtHyperArc before after hyperarc)).trans rfl

/-- The members of an image that is brought: those that do not leave, and those
that come. -/
theorem mem_broughtHyperArc {before after hyperarc : HyperArc} {node : NodeKey} :
    node ∈ (broughtHyperArc rule o place before after hyperarc).members ↔
      (node ∈ hyperarc.members ∧ node ∉ (leavingMembers rule before after).filterMap o.node?) ∨
        node ∈ (comingMembers rule before after).filterMap place := by
  show node ∈ (List.foldl HyperArc.attach _ _).members ↔ _
  rw [mem_foldl_attach, mem_foldl_detach]

/-- A hyperarc that was brought lists no member twice. -/
theorem nodup_broughtHyperArc {before after hyperarc : HyperArc} (h : hyperarc.members.Nodup) :
    (broughtHyperArc rule o place before after hyperarc).members.Nodup :=
  nodup_foldl_attach (nodup_foldl_detach h)

/-- Members leave a hyperarc that is there. -/
theorem removeMembers_eq_ok {image : HyperArcKey} (nodes : List NodeKey) :
    ∀ (g : Graph), g.hyperarcs.contains image = true →
      (nodes.foldlM (fun g node => Derivation.edit g (g.removeFromHyperArc image node)) g :
        Except Interrupted Graph)
        = .ok (g.modifyHyperArc image fun h => nodes.foldl HyperArc.detach h) := by
  induction nodes with
  | nil =>
    intro g _
    unfold Graph.modifyHyperArc
    simp only [List.foldl_nil, Registry.modify_id]
    rfl
  | cons node rest ih =>
    intro g h
    have hedit : Derivation.edit g (g.removeFromHyperArc image node)
        = .ok (g.modifyHyperArc image (·.detach node)) := by
      rw [Graph.removeFromHyperArc_eq_ok node h]
      rfl
    rw [List.foldlM_cons, hedit]
    refine (ih (g.modifyHyperArc image _) ((Registry.contains_modify ..).trans h)).trans ?_
    unfold Graph.modifyHyperArc
    rw [Registry.modify_modify]
    rfl

/-- Members come to a hyperarc that is there, if the nodes are alive. -/
theorem addMembers_eq_ok {image : HyperArcKey} (nodes : List NodeKey) :
    ∀ (g : Graph), g.hyperarcs.contains image = true → (∀ node ∈ nodes, g.hasNode node = true) →
      (nodes.foldlM (fun g node => Derivation.edit g (g.addToHyperArc image node)) g :
        Except Interrupted Graph)
        = .ok (g.modifyHyperArc image fun h => nodes.foldl HyperArc.attach h) := by
  induction nodes with
  | nil =>
    intro g _ _
    unfold Graph.modifyHyperArc
    simp only [List.foldl_nil, Registry.modify_id]
    rfl
  | cons node rest ih =>
    intro g h hnodes
    have hedit : Derivation.edit g (g.addToHyperArc image node)
        = .ok (g.modifyHyperArc image (·.attach node)) := by
      rw [Graph.addToHyperArc_eq_ok h (hnodes node List.mem_cons_self)]
      rfl
    rw [List.foldlM_cons, hedit]
    refine (ih (g.modifyHyperArc image _) ((Registry.contains_modify ..).trans h)
      fun m hm => hnodes m (List.mem_cons_of_mem node hm)).trans ?_
    unfold Graph.modifyHyperArc
    rw [Registry.modify_modify]
    rfl

/-- **An image is brought from L to R by one change.** -/
theorem updateHyperArc_eq_ok (hplace : ∀ m n, images.lookup m = some n → g.hasNode n = true)
    {key image : HyperArcKey} {before after : HyperArc} (himage : o.hyperarc? key = some image)
    (halive : g.hyperarcs.contains image = true) :
    updateHyperArc rule o images g (key, before, after)
      = .ok (g.modifyHyperArc image
          (broughtHyperArc rule o (images.lookup ·) before after)) := by
  have hcoming : ∀ node ∈ (comingMembers rule before after).filterMap (images.lookup ·),
      g.hasNode node = true := by
    intro node hnode
    obtain ⟨m, -, hm⟩ := List.mem_filterMap.1 hnode
    exact hplace m node hm
  unfold updateHyperArc
  dsimp only
  rw [himage]
  dsimp only
  refine bind_eq_ok_iff.2 ⟨_, removeMembers_eq_ok _ g halive, ?_⟩
  refine bind_eq_ok_iff.2 ⟨_, addMembers_eq_ok _ (g.modifyHyperArc image _)
    ((Registry.contains_modify ..).trans halive) hcoming, ?_⟩
  show Except.ok _ = _
  unfold Graph.modifyHyperArc
  dsimp only
  rw [Registry.modify_modify, Registry.modify_modify]
  rfl

/-- The changes of the images of context hyperarcs. -/
def hyperarcChanges (rule : GrammarRule) (o : RuleOption) (place : NodeKey → Option NodeKey)
    (pairs : List (HyperArcKey × HyperArc × HyperArc)) :
    List (HyperArcKey × (HyperArc → HyperArc)) :=
  Registry.changesOf pairs o.hyperarc? fun _ before after =>
    broughtHyperArc rule o place before after

/-- **The hyperarcs of the context are brought along by their changes**, and the host stays well
formed. As for arcs, but there are members to be kept distinct. -/
theorem updateHyperArc_foldlM (pairs : List (HyperArcKey × HyperArc × HyperArc)) :
    ∀ {g : Graph}, g.WellFormed → (∀ m n, images.lookup m = some n → g.hasNode n = true) →
      (∀ pair ∈ pairs, ∃ image, o.hyperarc? pair.1 = some image ∧
        g.hyperarcs.contains image = true) →
      let hyperarcs := g.hyperarcs.modifyAll (hyperarcChanges rule o (images.lookup ·) pairs)
      pairs.foldlM (updateHyperArc rule o images) g = .ok { g with hyperarcs } ∧
        ({ g with hyperarcs } : Graph).WellFormed := by
  induction pairs with
  | nil => exact fun hg _ _ => ⟨rfl, hg⟩
  | cons pair rest ih =>
    intro g hg hplace halive
    obtain ⟨key, before, after⟩ := pair
    obtain ⟨image, himage, hcontains⟩ := halive _ List.mem_cons_self
    have himage : o.hyperarc? key = some image := himage
    have hchanges : hyperarcChanges rule o (images.lookup ·) ((key, before, after) :: rest)
        = (image, broughtHyperArc rule o (images.lookup ·) before after)
          :: hyperarcChanges rule o (images.lookup ·) rest := by
      simp [hyperarcChanges, Registry.changesOf, himage]
    rw [List.foldlM_cons, updateHyperArc_eq_ok hplace himage hcontains, hchanges,
      Registry.modifyAll_cons]
    refine ih (hg.modifyHyperArc fun hyperarc hh => ⟨nameOf_broughtHyperArc .., ?_,
      nodup_broughtHyperArc (hg.members_distinct image hyperarc hh)⟩) hplace fun pair hpair => ?_
    · intro node hnode
      rcases mem_broughtHyperArc.1 hnode with ⟨hnode, -⟩ | hnode
      · exact hg.members_alive image hyperarc hh node hnode
      · obtain ⟨m, -, hm⟩ := List.mem_filterMap.1 hnode
        exact hplace m node hm
    · obtain ⟨image', himage', hcontains'⟩ := halive pair (List.mem_cons_of_mem _ hpair)
      exact ⟨image', himage', (Registry.contains_modify ..).trans hcontains'⟩

end HyperArcs

/-! ## Globals

Global labels and variables are changed beside the elements, and no part of well-formedness
speaks of them. -/

/-- Changing the globals keeps a graph well formed. -/
theorem wellFormed_updateGlobals {g : Graph} (hg : g.WellFormed) :
    (updateGlobals rule o g).WellFormed where
  nodes_indexed := hg.nodes_indexed
  arcs_indexed := hg.arcs_indexed
  hyperarcs_indexed := hg.hyperarcs_indexed
  ends_alive := hg.ends_alive
  members_alive := hg.members_alive
  members_distinct := hg.members_distinct

end Update

end GraphGrammar
