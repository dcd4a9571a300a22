import GraphGrammar.Application.Addition
import GraphGrammar.Proofs.BuiltRule
import GraphGrammar.Proofs.Rewriting

/-!
# Adding the rest of R

An element of R is found in the host at the image of its counterpart, or at the
key it was added under. `Correspondence.placeIn` says this for every kind of
elements, and different elements are found in different places
(`Pairs.placeIn_injective`).

Adding appends the elements outside the context and does nothing else. Arcs and
hyperarcs are not refused, because every node of R they refer to has a place
that is alive.

The nodes of R go first, since the arcs and hyperarcs refer to them. While nodes are gone
through, the images of the nodes of R are collected, for those in the context as well as for
those that are new; afterwards no part of the application asks again which of the two a node is.
-/

namespace GraphGrammar

open Attributed

/-! ## Where the elements of R are

What is said here holds of each kind alike, and of any list of keys that is long enough. The keys
that the host gives out are put in for it when the three kinds are gone through. -/

section Places

variable {κ : Kind}

/-- Looking a key up beside a list of values finds the value at its position. -/
theorem lookup_zip_eq_some {keys added : List (Key κ)} (hnodup : keys.Nodup) {key value : Key κ} :
    (keys.zip added).lookup key = some value ↔
      ∃ i : Nat, keys[i]? = some key ∧ added[i]? = some value := by
  have hfst : ((keys.zip added).map Prod.fst).Nodup := by
    rw [List.zip_eq_zip_take_min, List.map_fst_zip (by simp)]
    exact hnodup.sublist (List.take_sublist ..)
  constructor
  · intro h
    obtain ⟨i, hi⟩ := List.mem_iff_getElem?.1 (mem_of_lookup h)
    exact ⟨i, List.getElem?_zip_eq_some.1 hi⟩
  · rintro ⟨i, hi⟩
    exact lookup_of_mem hfst (List.mem_iff_getElem?.2 ⟨i, List.getElem?_zip_eq_some.2 hi⟩)

namespace Correspondence

variable {c : Correspondence (Key κ) (Key κ)} {image? : Key κ → Option (Key κ)}
  {keys added : List (Key κ)}

/-- The elements of R that have no counterpart. -/
def fresh (c : Correspondence (Key κ) (Key κ)) (keys : List (Key κ)) : List (Key κ) :=
  keys.filter fun key => (c.left? key).isNone

/-- **Where an element of R is found**: at the image of its counterpart, or
among the keys that were given to the elements without one. -/
def placeIn (c : Correspondence (Key κ) (Key κ)) (image? : Key κ → Option (Key κ))
    (keys added : List (Key κ)) (key : Key κ) : Option (Key κ) :=
  match c.left? key with
  | some lKey => image? lKey
  | none => ((c.fresh keys).zip added).lookup key

/-- An element of the context is at the image of its counterpart. -/
theorem placeIn_of_left? {lKey key : Key κ} (h : c.left? key = some lKey) :
    c.placeIn image? keys added key = image? lKey := by
  rw [placeIn, h]

/-- **The two ways to be somewhere**: as an element of the context at an image, or as the `i`-th
of the new elements at the `i`-th key. -/
theorem placeIn_eq_some (hnodup : keys.Nodup) {key place : Key κ} :
    c.placeIn image? keys added key = some place ↔
      (∃ lKey, c.left? key = some lKey ∧ image? lKey = some place) ∨
        c.left? key = none ∧ ∃ i : Nat, (c.fresh keys)[i]? = some key ∧ added[i]? = some place := by
  unfold placeIn
  cases c.left? key with
  | some lKey => simp
  | none =>
    show ((c.fresh keys).zip added).lookup key = some place ↔ _
    have hfresh : (c.fresh keys).Nodup := hnodup.filter _
    simp [lookup_zip_eq_some hfresh]

/-- What one more element without counterpart adds to the places. -/
theorem placeIn_cons (first : Key κ) (next : Key κ) (hfirst : c.left? first = none)
    (key : Key κ) : c.placeIn image? (first :: keys) (next :: added) key
      = if key = first then some next else c.placeIn image? keys added key := by
  unfold placeIn fresh
  by_cases hkey : key = first
  · subst hkey
    simp [hfirst]
  · rw [if_neg hkey]
    cases c.left? key with
    | some _ => rfl
    | none => simp [hfirst, List.lookup_cons, beq_false_of_ne hkey]

/-- An element that has a counterpart takes no key. -/
theorem placeIn_cons_of_left? {first lKey : Key κ} (hfirst : c.left? first = some lKey)
    (key : Key κ) : c.placeIn image? (first :: keys) added key
      = c.placeIn image? keys added key := by
  unfold placeIn fresh
  rw [List.filter_cons_of_neg (by simp [hfirst])]

end Correspondence

/-- **Different elements of R are found in different places**, as long as different elements of L
have different images that were there before. An image is a slot that the host has already, a new
key is one it does not have yet, and within each of the two nothing is used twice. -/
theorem Pairs.placeIn_injective {α β : Type} [Attributed α] {l r : Registry κ α}
    {s : Registry κ β} {named : Name → Prop} {c : Correspondence (Key κ) (Key κ)}
    {image? : Key κ → Option (Key κ)} (h : Pairs l r named c)
    (himages : ∀ {lKey other image}, image? lKey = some image → image? other = some image →
      lKey = other)
    (hold : ∀ lKey image, image? lKey = some image → image.index < s.cells.length)
    {count : Nat} {key other place : Key κ}
    (hkey : c.placeIn image? r.keys (s.nextKeys count) key = some place)
    (hother : c.placeIn image? r.keys (s.nextKeys count) other = some place) : key = other := by
  rw [Correspondence.placeIn_eq_some r.nodup_keys] at hkey hother
  rcases hkey with ⟨lKey, hleft, himage⟩ | ⟨-, i, hi, hplace⟩
  · rcases hother with ⟨lKey', hleft', himage'⟩ | ⟨-, j, -, hplace'⟩
    · cases himages himage himage'
      exact h.left?_injective hleft hleft'
    · exact absurd (List.mem_of_getElem? hplace') (s.notMem_nextKeys (hold lKey place himage) count)
  · rcases hother with ⟨lKey', -, himage'⟩ | ⟨-, j, hj, hplace'⟩
    · exact absurd (List.mem_of_getElem? hplace)
        (s.notMem_nextKeys (hold lKey' place himage') count)
    · have hlt := (List.getElem?_eq_some_iff.1 hplace).1
      cases (List.getElem?_inj hlt (s.nodup_nextKeys count)).1 (hplace.trans hplace'.symm)
      exact Option.some.inj (hi.symm.trans hj)

end Places

/-! ## What is added -/

namespace GrammarRule

/-- The nodes of R outside the context. -/
def freshNodes (rule : GrammarRule) : List (NodeKey × Node) :=
  rule.r.nodes.entries.filter fun (key, _) => (rule.contextNodes.left? key).isNone

/-- The arcs of R outside the context. -/
def freshArcs (rule : GrammarRule) : List (ArcKey × Arc) :=
  rule.r.arcs.entries.filter fun (key, _) => (rule.contextArcs.left? key).isNone

/-- The hyperarcs of R outside the context. -/
def freshHyperArcs (rule : GrammarRule) : List (HyperArcKey × HyperArc) :=
  rule.r.hyperarcs.entries.filter fun (key, _) => (rule.contextHyperArcs.left? key).isNone

/-- The places of the nodes of R, told by the keys that were given to those
outside the context. -/
def place (rule : GrammarRule) (a : Assignment) (added : List NodeKey) :
    NodeKey → Option NodeKey :=
  rule.contextNodes.placeIn a.node? rule.r.nodes.keys added

end GrammarRule

/-! ## One step

The three steps that can be refused, under the condition that keeps each of them from being
refused. -/

namespace Derivation

variable {d : Derivation}

/-- A change of the host that is not refused changes the host and nothing else of a derivation.
-/
theorem mapHostM_eq_ok {f : Graph → Except Interrupted Graph} {g : Graph}
    (h : f d.host = .ok g) : d.mapHostM f = .ok { d with host := g } :=
  bind_of_eq_ok h _

/-- An arc whose ends are alive is appended, under a free name, and its key is put down in the
report. -/
theorem addArc_eq_ok {arc : Arc} (h : ∀ node ∈ arc.ends, d.host.hasNode node = true) :
    d.addArc arc = .ok
      { host := { d.host with arcs := (d.host.arcs.pushUnique arc).2 }
        report := { d.report with addedArcs := d.report.addedArcs ++ [d.host.arcs.nextKey] } } := by
  unfold addArc edit
  rw [Graph.addArcUnique_eq_ok h]
  rfl

/-- A hyperarc whose members are alive is appended in the same way. -/
theorem addHyperArc_eq_ok {hyperarc : HyperArc}
    (h : ∀ node ∈ hyperarc.members, d.host.hasNode node = true) :
    d.addHyperArc hyperarc = .ok
      { host := { d.host with hyperarcs := (d.host.hyperarcs.pushUnique hyperarc).2 }
        report := { d.report with
          addedHyperArcs := d.report.addedHyperArcs ++ [d.host.hyperarcs.nextKey] } } := by
  unfold addHyperArc edit
  rw [Graph.addHyperArcUnique_eq_ok h]
  rfl

end Derivation

/-! ## The nodes of R

The induction is on the nodes of R that are left. It carries the images that were collected so
far, which is why `foldl_addNode` speaks of a list of images to begin with. -/

namespace Addition

variable {rule : GrammarRule} {o : RuleOption}

/-- A node of R, placed by the transform of an option. -/
def placedNode (o : RuleOption) (node : Node) : Node :=
  { node with position := o.positionTransform.apply node.position }

/-- Nodes refer to nothing, so appending them to a well-formed graph leaves it well formed. -/
theorem wellFormed_pushAll (nodes : List Node) :
    ∀ {g : Graph}, g.WellFormed →
      ({ g with nodes := g.nodes.pushAll nodes } : Graph).WellFormed := by
  induction nodes with
  | nil => exact fun hg => hg
  | cons node rest ih => exact fun hg => ih (hg.addNodeUnique node)

/-- A node of R that has a counterpart is placed at the image of this, if there
is one. -/
theorem addNode_of_left? {key lKey : NodeKey} (hleft : rule.contextNodes.left? key = some lKey)
    (d : Derivation) (images : Update.NodeImages) (node : Node) :
    addNode rule o (d, images) (key, node)
      = (d, images ++ ((o.node? lKey).map (Prod.mk key)).toList) := by
  cases himage : o.node? lKey <;> simp [addNode, hleft, himage]

/-- A node of R that has no counterpart is added. -/
theorem addNode_of_left?_none {key : NodeKey} (hleft : rule.contextNodes.left? key = none)
    (d : Derivation) (images : Update.NodeImages) (node : Node) :
    addNode rule o (d, images) (key, node)
      = ((d.addNode (placedNode o node)).2, images ++ [(key, d.host.nodes.nextKey)]) := by
  simp only [addNode, hleft]
  rfl

/-- An entry at the end of the images is found if the key was not there before. -/
theorem lookup_append_entry (images : Update.NodeImages) (first : NodeKey)
    (place : Option NodeKey) (key : NodeKey) :
    (images ++ (place.map (Prod.mk first)).toList).lookup key
      = (images.lookup key).or (if key = first then place else none) := by
  rw [List.lookup_append]
  by_cases hkey : key = first
  · subst hkey
    cases place <;> simp
  · cases place <;> simp [List.lookup_cons, beq_false_of_ne hkey, hkey]

/-- Going through nodes of R appends those without counterpart and places them all. The induction
keeps two things side by side: the host with the nodes appended so far, and the places told so
far. As no key comes twice, a place that was told is never told again. -/
theorem foldl_addNode (rule : GrammarRule) (o : RuleOption) (entries : List (NodeKey × Node)) :
    ∀ (d : Derivation) (images : Update.NodeImages), (entries.map Prod.fst).Nodup →
      let fresh := entries.filter fun (key, _) => (rule.contextNodes.left? key).isNone
      let added := d.host.nodes.nextKeys fresh.length
      (entries.foldl (addNode rule o) (d, images)).1 =
        { host := { d.host with
            nodes := d.host.nodes.pushAll (fresh.map fun entry => placedNode o entry.2) }
          report := { d.report with addedNodes := d.report.addedNodes ++ added } } ∧
      ∀ key, (entries.foldl (addNode rule o) (d, images)).2.lookup key = (images.lookup key).or
        (if key ∈ entries.map Prod.fst then
          rule.contextNodes.placeIn o.node? (entries.map Prod.fst) added key
        else none) := by
  induction entries with
  | nil =>
    intro d images _
    refine ⟨?_, fun key => by simp⟩
    show d = { d with report := { d.report with addedNodes := d.report.addedNodes ++ [] } }
    rw [List.append_nil]
  | cons entry rest ih =>
    intro d images hnodup
    obtain ⟨first, node⟩ := entry
    rw [List.map_cons, List.nodup_cons] at hnodup
    obtain ⟨hnew, hnodup⟩ := hnodup
    have hmem : ∀ {key}, key ≠ first →
        (key ∈ first :: rest.map Prod.fst ↔ key ∈ rest.map Prod.fst) := fun hkey => by
      rw [List.mem_cons, or_iff_right hkey]
    dsimp only
    rw [List.foldl_cons, List.map_cons]
    cases hleft : rule.contextNodes.left? first with
    | some lNode =>
      rw [addNode_of_left? hleft, List.filter_cons_of_neg (by simp [hleft])]
      obtain ⟨hd, himages⟩ := ih d _ hnodup
      refine ⟨hd, fun key => (himages key).trans ?_⟩
      rw [lookup_append_entry, Option.or_assoc]
      -- the first node is not met again, so its place is not overridden
      by_cases hkey : key = first
      · subst hkey
        rw [if_pos rfl, if_neg hnew, Option.or_none, if_pos List.mem_cons_self,
          Correspondence.placeIn_of_left? hleft]
      · rw [if_neg hkey, Option.none_or, if_congr (hmem hkey) rfl rfl,
          Correspondence.placeIn_cons_of_left? hleft]
    | none =>
      rw [addNode_of_left?_none hleft, List.filter_cons_of_pos (by simp [hleft]),
        List.length_cons, Registry.nextKeys_succ d.host.nodes (placedNode o node)]
      obtain ⟨hd, himages⟩ := ih (d.addNode (placedNode o node)).2
        (images ++ [(first, d.host.nodes.nextKey)]) hnodup
      constructor
      · rw [hd]
        show Derivation.mk _ { d.report with
          addedNodes := (d.report.addedNodes ++ [d.host.nodes.nextKey]) ++ _ } = _
        rw [List.append_assoc]
        rfl
      · refine fun key => (himages key).trans ?_
        refine (congrArg (Option.or · _)
          (lookup_append_entry images first (some d.host.nodes.nextKey) key)).trans ?_
        rw [Option.or_assoc, Correspondence.placeIn_cons _ _ hleft]
        by_cases hkey : key = first
        · subst hkey
          simp
        · rw [if_neg hkey, Option.none_or, if_congr (hmem hkey) rfl rfl, if_neg hkey]
          rfl

/-- **Adding the nodes of R appends those outside the context**, and places
every node of R. -/
theorem addNodes_eq (hrule : rule.Coherent) (d : Derivation) :
    let added := d.host.nodes.nextKeys rule.freshNodes.length
    (addNodes rule o d).1 =
      { host := { d.host with
          nodes := d.host.nodes.pushAll (rule.freshNodes.map fun entry => placedNode o entry.2) }
        report := { d.report with addedNodes := d.report.addedNodes ++ added } } ∧
    ∀ key, (addNodes rule o d).2.lookup key = rule.place o.toAssignment added key := by
  obtain ⟨hd, himages⟩ :=
    foldl_addNode rule o rule.r.nodes.entries d [] rule.r.nodes.nodup_keys
  refine ⟨hd, fun key => (himages key).trans ?_⟩
  rw [List.lookup_nil, Option.none_or]
  by_cases hkey : key ∈ rule.r.nodes.entries.map Prod.fst
  · exact if_pos hkey
  · rw [if_neg hkey]
    refine (Option.eq_none_iff_forall_ne_some.2 fun image himage => hkey ?_).symm
    rcases (Correspondence.placeIn_eq_some rule.r.nodes.nodup_keys).1 himage with
      ⟨lKey, hleft, -⟩ | ⟨-, i, hi, -⟩
    · obtain ⟨-, node, -, hnode, -⟩ := hrule.node_pairs.exists_elements
        hrule.l_wellFormed.nodes_indexed hrule.r_wellFormed.nodes_indexed
        ((hrule.node_pairs.left?_iff _ _).1 hleft)
      exact Registry.mem_keys_iff.2 (Registry.contains_iff.2 ⟨node, hnode⟩)
    · exact (List.mem_filter.1 (List.mem_of_getElem? hi)).1

/-! ## Arcs and hyperarcs

Where the nodes of R are is settled by now. All that is asked of these places is that they are
alive, and appending arcs and hyperarcs does not change that. -/

section Connected

variable {images : Update.NodeImages}

/-- The members of a hyperarc that is added are alive: a member without a place is left out. -/
theorem hasNode_of_mem_mapMembers {g : Graph}
    (hplace : ∀ m n, images.lookup m = some n → g.hasNode n = true) (hyperarc : HyperArc) :
    ∀ node ∈ (hyperarc.mapMembers (images.lookup ·)).members, g.hasNode node = true := by
  intro node hnode
  obtain ⟨m, -, hm⟩ := List.mem_filterMap.1 hnode
  exact hplace m node hm

/-- Going through arcs appends them, with their ends at the places of their nodes. Their ends are
at nodes that are alive already, so no addition is refused and the graph is well formed after
each. -/
theorem foldlM_addArc (entries : List (ArcKey × Arc)) :
    ∀ {d : Derivation}, d.host.WellFormed →
      (∀ m n, images.lookup m = some n → d.host.hasNode n = true) →
      let host := { d.host with
        arcs := d.host.arcs.pushAll (entries.map fun entry => entry.2.mapEnds (images.lookup ·)) }
      entries.foldlM (fun d (_, arc) => d.addArc (arc.mapEnds (images.lookup ·))) d = .ok
        { host
          report := { d.report with
            addedArcs := d.report.addedArcs ++ d.host.arcs.nextKeys entries.length } } ∧
        host.WellFormed := by
  induction entries with
  | nil =>
    intro d hd _
    refine ⟨?_, hd⟩
    show Except.ok d = .ok { d with
      report := { d.report with addedArcs := d.report.addedArcs ++ [] } }
    rw [List.append_nil]
  | cons entry rest ih =>
    intro d hd hplace
    obtain ⟨key, arc⟩ := entry
    have hends : ∀ node ∈ (arc.mapEnds (images.lookup ·)).ends, d.host.hasNode node = true := by
      intro node hnode
      rcases Arc.mem_ends.1 hnode with hend | hend
      · obtain ⟨m, -, hm⟩ := Option.bind_eq_some_iff.1 hend
        exact hplace m node hm
      · obtain ⟨m, -, hm⟩ := Option.bind_eq_some_iff.1 hend
        exact hplace m node hm
    rw [List.foldlM_cons, List.length_cons,
      Registry.nextKeys_succ d.host.arcs (arc.mapEnds (images.lookup ·))]
    obtain ⟨hrest, hwellFormed⟩ := ih (d := ⟨_, _⟩) (hd.pushArc hends) hplace
    refine ⟨bind_eq_ok_iff.2 ⟨_, Derivation.addArc_eq_ok hends, hrest.trans ?_⟩, hwellFormed⟩
    show Except.ok (Derivation.mk _ { d.report with
      addedArcs := (d.report.addedArcs ++ [d.host.arcs.nextKey]) ++ _ }) = _
    rw [List.append_assoc]
    rfl

/-- Going through hyperarcs appends them, with the places of their nodes as members. Beside live
members they need distinct ones, and for this the places of different nodes have to be different.
-/
theorem foldlM_addHyperArc
    (hinj : ∀ {m m' n}, images.lookup m = some n → images.lookup m' = some n → m = m')
    (entries : List (HyperArcKey × HyperArc)) :
    ∀ {d : Derivation}, d.host.WellFormed →
      (∀ m n, images.lookup m = some n → d.host.hasNode n = true) →
      (∀ entry ∈ entries, entry.2.members.Nodup) →
      let host := { d.host with
        hyperarcs := d.host.hyperarcs.pushAll
          (entries.map fun entry => entry.2.mapMembers (images.lookup ·)) }
      entries.foldlM (fun d (_, hyperarc) =>
          d.addHyperArc (hyperarc.mapMembers (images.lookup ·))) d = .ok
        { host
          report := { d.report with
            addedHyperArcs :=
              d.report.addedHyperArcs ++ d.host.hyperarcs.nextKeys entries.length } } ∧
        host.WellFormed := by
  induction entries with
  | nil =>
    intro d hd _ _
    refine ⟨?_, hd⟩
    show Except.ok d = .ok { d with
      report := { d.report with addedHyperArcs := d.report.addedHyperArcs ++ [] } }
    rw [List.append_nil]
  | cons entry rest ih =>
    intro d hd hplace hdistinct
    obtain ⟨key, hyperarc⟩ := entry
    have hmembers := hasNode_of_mem_mapMembers hplace hyperarc
    -- different members have different places
    have hnodup : (hyperarc.mapMembers (images.lookup ·)).members.Nodup :=
      (hdistinct _ List.mem_cons_self).filterMap fun _ _ _ hm hm' => hinj hm hm'
    rw [List.foldlM_cons, List.length_cons,
      Registry.nextKeys_succ d.host.hyperarcs (hyperarc.mapMembers (images.lookup ·))]
    obtain ⟨hrest, hwellFormed⟩ := ih (d := ⟨_, _⟩) (hd.pushHyperArc hmembers hnodup) hplace
      fun entry hentry => hdistinct entry (List.mem_cons_of_mem _ hentry)
    refine ⟨bind_eq_ok_iff.2 ⟨_, Derivation.addHyperArc_eq_ok hmembers, hrest.trans ?_⟩,
      hwellFormed⟩
    show Except.ok (Derivation.mk _ { d.report with
      addedHyperArcs := (d.report.addedHyperArcs ++ [d.host.hyperarcs.nextKey]) ++ _ }) = _
    rw [List.append_assoc]
    rfl

end Connected

end Addition

end GraphGrammar
