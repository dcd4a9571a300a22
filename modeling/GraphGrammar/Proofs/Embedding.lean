import GraphGrammar.Proofs.Comatch
import GraphGrammar.Proofs.ConfluentSet
import GraphGrammar.Proofs.DanglingEnds

/-!
# Arcs that lose one end

An arc of the host that is no image and loses one of its ends is offered to the embedding
rules. `EmbeddingRule.Admits` says which of them admit it, and `EmbeddingRule.upToForbidding`
how many of these get it: the first gets the arc, and each later one a copy, up to the first
that forbids more. `apply_embeds` says where each of them puts it, and that an arc that none
admits dangles and is reported once.

Free ends are gone through one by one, and each one is offered in the host that the ends
before it left. So the run is cut at the end in question (`Reattachment.reattachAll_cut`).
Ends before and after it are ends of other arcs, and leave this one alone.

Which rules admit an end is a question about the host that the application began with. Labels,
orientation and neighbour of the arc are the same when its turn has come, and so the answer need
not mention the graph in between.
-/

namespace GraphGrammar

open Attributed

variable {host : Graph} {rule : GrammarRule} {o : RuleOption}

/-! ## Which embedding rules get an arc

The test of an embedding rule is a conjunction of five questions, of which some are only asked if
the rule says something about them. `EmbeddingRule.Admits` is the conjunction with the questions
spelled out. -/

/-- An old direction is asked for of an arc that has an orientation only. -/
theorem ArcDirection.admits_iff {required actual : ArcDirection} {oriented : Bool} :
    required.admits actual oriented = true ↔
      (oriented = true → required = .any ∨ required = actual) := by
  unfold ArcDirection.admits
  cases oriented <;> simp

namespace EmbeddingRule

/-- **An embedding rule admits an arc** whose end was at the image of a node of L, with what is
at its other end, if anything. Each field is a question that the rule may or may not ask; a rule
that says nothing admits every arc. -/
structure Admits (e : EmbeddingRule) (arc : Arc) (freed : ArcEnd) (deleted : Name)
    (neighbor : Option Node) : Prop where
  lNode : ∀ name, e.lNode = some name → name = deleted
  arcLabels : ∀ label ∈ e.arcLabels.toList, label ∈ arc.labels.toList
  arcNegateLabels : ∀ label ∈ e.arcNegateLabels.toList, label ∉ arc.labels.toList
  neighborLabels : ∀ label ∈ e.neighborLabels.toList,
    ∃ node, neighbor = some node ∧ label ∈ node.labels.toList
  neighborNegateLabels : ∀ label ∈ e.neighborNegateLabels.toList,
    ∀ node, neighbor = some node → label ∉ node.labels.toList
  direction : arc.isOriented = true → e.oldDirection = .any ∨ e.oldDirection = .atEnd freed

section

variable {e : EmbeddingRule} {arc : Arc} {freed : ArcEnd} {deleted : Name} {neighbor : Option Node}

/-- What is asked of the neighbour: it has some labels and lacks others, and if there is no
neighbour no labels may be asked for. -/
theorem neighbor_fits_iff :
    (match neighbor.map (·.labels) with
      | some labels =>
        labels.containsAll e.neighborLabels && !labels.containsAny e.neighborNegateLabels
      | none => e.neighborLabels.isEmpty) = true ↔
    (∀ label ∈ e.neighborLabels.toList, ∃ node, neighbor = some node ∧ label ∈ node.labels.toList) ∧
      ∀ label ∈ e.neighborNegateLabels.toList, ∀ node, neighbor = some node →
        label ∉ node.labels.toList := by
  cases neighbor with
  | none => simp [LabelSet.isEmpty, List.eq_nil_iff_forall_not_mem]
  | some node =>
    show (_ && _) = true ↔ _
    rw [Bool.and_eq_true, Bool.not_eq_true', LabelSet.containsAll_iff,
      LabelSet.containsAny_eq_false_iff]
    simp

/-- Of the arc itself, only labels and orientation are looked at. -/
theorem admits_congr {other : Arc} (hlabels : other.labels = arc.labels)
    (horiented : other.isOriented = arc.isOriented) :
    e.Admits other freed deleted neighbor ↔ e.Admits arc freed deleted neighbor := by
  constructor
  · rintro ⟨hname, hall, hnone, hneighbor, hneighborNone, hdirection⟩
    exact ⟨hname, hlabels ▸ hall, hlabels ▸ hnone, hneighbor, hneighborNone,
      horiented ▸ hdirection⟩
  · rintro ⟨hname, hall, hnone, hneighbor, hneighborNone, hdirection⟩
    exact ⟨hname, hlabels ▸ hall, hlabels ▸ hnone, hneighbor, hneighborNone,
      horiented ▸ hdirection⟩

/-- Where the free end is does not matter to an embedding rule. -/
theorem admits_withEnd_iff {node : Option NodeKey} :
    e.Admits (arc.withEnd freed node) freed deleted neighbor ↔
      e.Admits arc freed deleted neighbor := by
  cases freed <;> exact admits_congr rfl rfl

/-- What is tested is whether the arc is admitted. -/
theorem admits_iff :
    ((e.lNode.isNone || e.lNode == some deleted) &&
      e.admits arc.labels (neighbor.map (·.labels)) (.atEnd freed) arc.isOriented) = true ↔
    e.Admits arc freed deleted neighbor := by
  have hname : (e.lNode.isNone || e.lNode == some deleted) = true ↔
      ∀ name, e.lNode = some name → name = deleted := by
    cases e.lNode <;> simp
  unfold EmbeddingRule.admits
  rw [Bool.and_eq_true, Bool.and_eq_true, Bool.and_eq_true, Bool.and_eq_true, Bool.not_eq_true',
    hname, LabelSet.containsAll_iff, LabelSet.containsAny_eq_false_iff, ArcDirection.admits_iff]
  refine (and_congr_right' (and_congr_left' (and_congr_right' neighbor_fits_iff))).trans ?_
  constructor
  · rintro ⟨hname, ⟨⟨hlabels, hnegate⟩, hneighbor, hneighborNegate⟩, hdirection⟩
    exact ⟨hname, hlabels, hnegate, hneighbor, hneighborNegate, hdirection⟩
  · intro h
    exact ⟨h.lNode, ⟨⟨h.arcLabels, h.arcNegateLabels⟩, h.neighborLabels, h.neighborNegateLabels⟩,
      h.direction⟩

instance : Decidable (e.Admits arc freed deleted neighbor) := decidable_of_iff _ admits_iff

end

/-- **An arc that was attached as an embedding rule asks.** It has the attributes of the arc that
lost an end, and joins a place with what is at the other end of that arc. Which end of the new
arc is at the place depends on the direction that is asked for. -/
structure Attaches (e : EmbeddingRule) (freed : ArcEnd) (place : NodeKey) (arc attached : Arc) :
    Prop where
  labels : attached.labels = arc.labels
  values : attached.values = arc.values
  typeTag : attached.typeTag = arc.typeTag
  doublyDirected : attached.doublyDirected = arc.doublyDirected
  directed : attached.directed = true ↔ arc.directed = true ∨ e.newDirection ≠ .any
  into : e.newDirection = .into →
    attached.source = arc.atEnd freed.opposite ∧ attached.target = some place
  outOf : e.newDirection = .outOf →
    attached.source = some place ∧ attached.target = arc.atEnd freed.opposite
  /-- Without a direction to honour, the free end is where it was. -/
  any : e.newDirection = .any →
    attached.atEnd freed = some place ∧ attached.atEnd freed.opposite = arc.atEnd freed.opposite

namespace Attaches

variable {e : EmbeddingRule} {freed : ArcEnd} {place : NodeKey} {arc attached : Arc}

/-- What was at the free end does not matter. -/
theorem of_withEnd {node : Option NodeKey}
    (h : e.Attaches freed place (arc.withEnd freed node) attached) :
    e.Attaches freed place arc attached := by
  cases freed <;>
    exact ⟨h.labels, h.values, h.typeTag, h.doublyDirected, h.directed, h.into, h.outOf, h.any⟩

/-- A copy is attached in the same way under another name. -/
theorem renamed (h : e.Attaches freed place arc attached) (name : Name) :
    e.Attaches freed place arc (renamed attached name) :=
  ⟨h.labels, h.values, h.typeTag, h.doublyDirected, h.directed, h.into, h.outOf, fun hany => by
    cases freed <;> exact h.any hany⟩

end Attaches

/-- The embedding rules up to the first that forbids duplication, and that one. -/
def upToForbidding (rules : List EmbeddingRule) : List EmbeddingRule :=
  rules.takeWhile (·.allowDuplication) ++ (rules.dropWhile (·.allowDuplication)).take 1

/-- Behind a rule that forbids duplication nobody gets anything. -/
theorem upToForbidding_cons (e : EmbeddingRule) (rest : List EmbeddingRule) :
    upToForbidding (e :: rest) = e :: if e.allowDuplication then upToForbidding rest else [] := by
  unfold upToForbidding
  cases h : e.allowDuplication <;> simp [h]

end EmbeddingRule

namespace Reattachment

variable {images : Update.NodeImages}

/-- Whoever takes an end is among the first rules that admit it, up to one that forbids
duplication. -/
theorem map_takeDuplicating :
    ∀ admitted : List (EmbeddingRule × NodeKey), (takeDuplicating admitted).map Prod.fst
      = EmbeddingRule.upToForbidding (admitted.map Prod.fst)
  | [] => rfl
  | (e, target) :: rest => by
    rw [List.map_cons, EmbeddingRule.upToForbidding_cons, ← map_takeDuplicating rest,
      takeDuplicating]
    cases e.allowDuplication <;> rfl

/-- What is at the other end of an arc that lost an end, or nothing if it lost both. -/
def neighbor (host : Graph) (arc : Arc) (freed : ArcEnd) (otherFreed : Bool) : Option Node :=
  (if otherFreed then none else arc.atEnd freed.opposite).bind host.node?

/-- **The embedding rules that a free end is offered to are those that admit it**: each of
them finds its node of R. -/
theorem map_admitting (hplace : ∀ e ∈ rule.embeddingRules,
      ∃ m n, rule.r.nodes.find? e.rNode = some m ∧ images.lookup m = some n)
    {f : FreeEnd} {lNode : Node} (hl : rule.l.node? f.lNode = some lNode) (g : Graph) (arc : Arc)
    (otherFreed : Bool) :
    (admitting g rule images arc f otherFreed).map Prod.fst = rule.embeddingRules.filter fun e =>
      e.Admits arc f.freed lNode.name (neighbor g arc f.freed otherFreed) := by
  unfold admitting
  dsimp only
  rw [List.map_filterMap, hl]
  refine (List.filterMap_congr (g := some) fun e he => ?_).trans
    ((List.filterMap_some ..).trans (List.filter_congr fun e _ => ?_))
  · obtain ⟨m, n, hm, hn⟩ := hplace e (List.mem_of_mem_filter he)
    rw [hm, Option.bind_some, hn]
    rfl
  · exact Bool.eq_iff_iff.2 (EmbeddingRule.admits_iff.trans decide_eq_true_iff.symm)

/-- **The embedding rules that get an end** are the first of those that admit it, up to the first
that forbids duplication. -/
theorem map_takers (hplace : ∀ e ∈ rule.embeddingRules,
      ∃ m n, rule.r.nodes.find? e.rNode = some m ∧ images.lookup m = some n)
    {f : FreeEnd} {lNode : Node} (hl : rule.l.node? f.lNode = some lNode) (g : Graph) (arc : Arc) :
    (takers rule images false g arc f).map Prod.fst
      = EmbeddingRule.upToForbidding (rule.embeddingRules.filter fun e =>
          e.Admits arc f.freed lNode.name ((arc.atEnd f.freed.opposite).bind g.node?)) :=
  (map_takeDuplicating _).trans
    (congrArg EmbeddingRule.upToForbidding (map_admitting hplace hl g arc false))

/-- Only the nodes of the host are looked at. -/
theorem takers_congr {g g' : Graph} (h : g'.nodes = g.nodes) (otherFreed : Bool) (arc : Arc)
    (f : FreeEnd) :
    takers rule images otherFreed g' arc f = takers rule images otherFreed g arc f := by
  unfold takers admitting Graph.node?
  rw [h]

end Reattachment

/-! ## The free ends of one arc

An arc has a place in the list of free ends for each of its ends that was at a deleted node. If
it keeps the other end, there is one such place. -/

namespace Deletion

/-- The ends of an arc at the image of a node of L. -/
def freedAt (key : ArcKey) (arc : Arc) (image : NodeKey × NodeKey) : List FreeEnd :=
  (ArcEnd.both.filter (arc.atEnd · == some image.2)).map (⟨key, ·, image.1⟩)

/-- An arc that is not at a node has no free end because of it. -/
theorem freedAt_eq_nil {key : ArcKey} {arc : Arc} {image : NodeKey × NodeKey}
    (h : ∀ e, arc.atEnd e ≠ some image.2) : freedAt key arc image = [] := by
  unfold freedAt
  rw [List.filter_eq_nil_iff.2 fun e _ => by simpa using h e]
  rfl

/-- The end of an arc at a node that the other end is not at. -/
theorem freedAt_of_atEnd {arc : Arc} {e : ArcEnd} {image : NodeKey} (h : arc.atEnd e = some image)
    (hother : arc.atEnd e.opposite ≠ some image) (key : ArcKey) (lKey : NodeKey) :
    freedAt key arc (lKey, image) = [⟨key, e, lKey⟩] := by
  unfold freedAt ArcEnd.both
  cases e with
  | source => simp [h, show arc.atEnd .target ≠ some image from hother]
  | target => simp [h, show arc.atEnd .source ≠ some image from hother]

/-- Of the free ends that are noted, those of one arc are noted node by node. The arc loses its
ends along the way, and an end that was let go of is not noted again. With different images it is
at no later node anyway, so what is noted can be told from the arc as it was. -/
theorem filter_foldl_deleteNode {matched : List ArcKey} {key : ArcKey} {arc : Arc}
    (hnew : key ∉ matched) (images : List (NodeKey × NodeKey)) :
    ∀ {d : Derivation} {nodes : List NodeKey} (free : List FreeEnd), d.host.WellFormed →
      d.host.arc? key = some (arc.without nodes) → (nodes ++ images.map Prod.snd).Nodup →
      (images.foldl (deleteNode matched) (d, free)).2.filter (·.arc == key)
        = free.filter (·.arc == key) ++ images.flatMap (freedAt key arc) := by
  induction images with
  | nil =>
    intro d nodes free _ _ _
    simp
  | cons image rest ih =>
    intro d nodes free hd harc hnodup
    rw [List.map_cons, List.append_cons] at hnodup
    have hone := Deletes.removeNode hd image.2
    have harc' : (d.removeNode image.2).host.arc? key
        = some (arc.without (nodes ++ [image.2])) := by
      rw [hone.arc?, harc]
      exact congrArg some (Arc.without_append ..).symm
    -- no end that is at the node was let go of before
    have hfreed : ∀ e, ((arc.without nodes).atEnd e == some image.2)
        = (arc.atEnd e == some image.2) := by
      intro e
      have hnot : image.2 ∉ nodes := fun hmem =>
        (List.nodup_append.1 (List.nodup_append.1 hnodup).1).2.2 _ hmem _ List.mem_cons_self rfl
      rw [Bool.eq_iff_iff, beq_iff_eq, beq_iff_eq, Arc.atEnd_without, Option.filter_eq_some_iff]
      simp [hnot]
    have hfirst : (freeEnds d.host matched image.1 image.2).filter (·.arc == key)
        = freedAt key arc image := by
      rw [filter_freeEnds hnew harc]
      unfold freedAt
      rw [List.filter_congr fun e _ => hfreed e]
    refine (ih (free ++ freeEnds d.host matched image.1 image.2) hone.wellFormed harc' hnodup).trans
      ?_
    rw [List.filter_append, hfirst, List.flatMap_cons, List.append_assoc]

/-- **The free ends of an arc that is no image**, in the order in which they are offered: by
the nodes of L, and sources first. -/
theorem filter_free_deleteAll {d : Derivation} (hd : d.host.WellFormed)
    (hdistinct : o.toAssignment.Distinct) {key : ArcKey} {arc : Arc} (hnew : key ∉ o.arcImages)
    (harc : d.host.arc? key = some arc) :
    (deleteAll rule o d).2.filter (·.arc == key)
      = (rule.goneImages o.toAssignment).flatMap (freedAt key arc) := by
  refine filter_foldl_deleteNode hnew (rule.goneImages o.toAssignment) []
    (deletes_beforeNodes rule o hd).wellFormed (arc?_beforeNodes hd hnew harc) ?_
  rw [List.nil_append, rule.map_snd_goneImages]
  exact Correspondence.nodup_gone rule.l.nodes.nodup_keys hdistinct.node_inj

/-- An arc whose other end stays has one free end. There the rest of the run can be cut off on
both sides. -/
theorem filter_free_eq_singleton {d : Derivation} (hd : d.host.WellFormed)
    (hdistinct : o.toAssignment.Distinct) {key : ArcKey} {arc : Arc} (hnew : key ∉ o.arcImages)
    (harc : d.host.arc? key = some arc) {freed : ArcEnd} {lKey gone : NodeKey}
    (hgone : (lKey, gone) ∈ rule.goneImages o.toAssignment) (hfreed : arc.atEnd freed = some gone)
    (hother : ∀ node, arc.atEnd freed.opposite = some node →
      node ∉ rule.goneNodes o.toAssignment) :
    (deleteAll rule o d).2.filter (·.arc == key) = [⟨key, freed, lKey⟩] := by
  have hstays : ∀ entry ∈ rule.goneImages o.toAssignment,
      arc.atEnd freed.opposite ≠ some entry.2 := fun entry hentry hat =>
    hother entry.2 hat (rule.map_snd_goneImages _ ▸ List.mem_map_of_mem hentry)
  rw [filter_free_deleteAll hd hdistinct hnew harc,
    flatMap_eq_of_unique (rule.nodup_goneImages _) hgone fun entry hentry hne => ?_]
  · exact freedAt_of_atEnd hfreed (hstays _ hgone) key lKey
  · refine freedAt_eq_nil fun e hat => ?_
    by_cases he : e = freed
    · -- the end that is lost is at the image of one node of L only
      rw [he, hfreed] at hat
      cases hat
      exact hne (hdistinct.node_inj (GrammarRule.mem_goneImages.1 hentry).2.2
        (GrammarRule.mem_goneImages.1 hgone).2.2)
    · exact hstays entry hentry (ArcEnd.eq_opposite_of_ne he ▸ hat)

end Deletion

/-! ## One end among many

The free ends of other arcs are offered before and after the one in question. `Elsewhere` is what
these offers leave alone: the arc, what is said of it, and the copies that were made of it. -/

namespace Reattachment

variable {images : Update.NodeImages}

/-- **Only ends of other arcs were offered.** The arc itself is left alone, as are copies of
arcs, and nothing is said of it. It is the frame of reattaching with one arc taken out of the
free ones. -/
structure Elsewhere (before after : Derivation) (ends : List FreeEnd) (key : ArcKey) : Prop
    extends Reattaches before after ((ends.map (·.arc)).filter (· != key)) where
  remarks : after.report.diagnostics.filter (·.isFor key)
    = before.report.diagnostics.filter (·.isFor key)

namespace Elsewhere

variable {d d' d'' : Derivation} {ends : List FreeEnd} {key : ArcKey}

/-- Where nothing is offered nothing changes. -/
theorem refl (h : d.host.WellFormed) (ends : List FreeEnd) (key : ArcKey) :
    Elsewhere d d ends key := ⟨.refl h _, rfl⟩

/-- One offer after another. -/
theorem trans (h : Elsewhere d d' ends key) (h' : Elsewhere d' d'' ends key) :
    Elsewhere d d'' ends key :=
  ⟨h.toReattaches.trans h'.toReattaches, h'.remarks.trans h.remarks⟩

/-- The arc is as it was. -/
theorem arc?_self (h : Elsewhere d d' ends key) {arc : Arc} (harc : d.host.arc? key = some arc) :
    d'.host.arc? key = some arc :=
  (h.arc? key (Registry.lt_of_get?_eq_some harc) (by simp)).trans harc

/-- Arcs beyond those that have free ends are left alone. -/
theorem arc?_of_le (h : Elsewhere d d' ends key) {limit : Nat}
    (hends : ∀ f ∈ ends, f.arc.index < limit) {other : ArcKey} (hother : limit ≤ other.index)
    {arc : Arc} (harc : d.host.arc? other = some arc) : d'.host.arc? other = some arc := by
  refine (h.arc? other (Registry.lt_of_get?_eq_some harc) fun hmem => ?_).trans harc
  obtain ⟨f, hf, rfl⟩ := List.mem_map.1 (List.mem_of_mem_filter hmem)
  exact absurd (hends f hf) (Nat.not_lt.2 hother)

end Elsewhere

/-- An offer of an end of some other arc stays elsewhere. -/
theorem Offered.elsewhere {d d' : Derivation} {f : FreeEnd} {otherFreed : Bool}
    {ends : List FreeEnd} {key : ArcKey} (h : Offered d f otherFreed d') (hd : d.host.WellFormed)
    (hf : f ∈ ends) (hne : f.arc ≠ key) : Elsewhere d d' ends key := by
  refine ⟨h.reattaches hd (List.mem_filter.2 ⟨List.mem_map_of_mem hf, bne_iff_ne.2 hne⟩), ?_⟩
  cases h with
  | dead => rfl
  | dangling =>
    refine (List.filter_append ..).trans ?_
    rw [List.filter_cons_of_neg (by simpa [Diagnostic.isFor] using hne), List.filter_nil,
      List.append_nil]
  | attached => rfl

variable {d done : Derivation} {ends : List FreeEnd} {key : ArcKey}

/-- Offering ends of other arcs succeeds, and stays with these arcs. The order in which they are
offered is of no matter for the arc in question. -/
theorem foldlM_reattach_elsewhere (rule : GrammarRule) (hd : d.host.WellFormed)
    (hplace : ∀ m n, images.lookup m = some n → d.host.hasNode n = true) {some : List FreeEnd}
    (hsome : ∀ f ∈ some, f ∈ ends ∧ f.arc ≠ key) (doublyFreed : List ArcKey) :
    ∃ d', some.foldlM (reattach rule images doublyFreed) d = .ok d' ∧ Elsewhere d d' ends key := by
  refine foldlM_succeeds (P := (Elsewhere d · ends key)) (fun d' f hf h => ?_) (.refl hd _ _)
  obtain ⟨d'', hd'', hoffered⟩ := exists_offered rule h.wellFormed.ends_alive
    (fun m n hm => (h.hasNode n).trans (hplace m n hm)) f doublyFreed
  obtain ⟨hmem, hne⟩ := hsome f hf
  exact ⟨d'', hd'', h.trans (hoffered.elsewhere h.wellFormed hmem hne)⟩

/-- **The run cut at one end.** The ends before it are elsewhere. It is handed out to the
embedding rules that admit the arc as it was, and the rest is still to come. -/
theorem foldlM_reattach_cut (rule : GrammarRule) (hd : d.host.WellFormed)
    (hplace : ∀ m n, images.lookup m = some n → d.host.hasNode n = true)
    {before after : List FreeEnd} {f : FreeEnd}
    (hbefore : ∀ g ∈ before, g ∈ ends ∧ g.arc ≠ f.arc) {arc : Arc}
    (harc : d.host.arc? f.arc = some arc) {doublyFreed : List ArcKey}
    (hok : (before ++ f :: after).foldlM (reattach rule images doublyFreed) d = .ok done) :
    let otherFreed := doublyFreed.contains f.arc
    ∃ d₁ d₂, Elsewhere d d₁ ends f.arc ∧ Reattaches d₁ d₂ [f.arc] ∧
      d₂ = handOut d₁ f otherFreed arc (takers rule images otherFreed d.host arc f) ∧
      after.foldlM (reattach rule images doublyFreed) d₂ = .ok done := by
  intro otherFreed
  obtain ⟨d₁, hd₁, helsewhere⟩ := foldlM_reattach_elsewhere rule hd hplace hbefore doublyFreed
  rw [List.foldlM_append, hd₁] at hok
  obtain ⟨d₂, hd₂, hok⟩ := bind_eq_ok_iff.1 ((List.foldlM_cons ..).symm.trans hok)
  have hplace₁ : ∀ m n, images.lookup m = some n → d₁.host.hasNode n = true := fun m n hm =>
    (helsewhere.hasNode n).trans (hplace m n hm)
  obtain ⟨_, hd₂', hreattaches⟩ := reattach_succeeds rule helsewhere.wellFormed hplace₁
    (List.mem_singleton.2 rfl) doublyFreed
  cases hd₂.symm.trans hd₂'
  have hhanded := reattach_eq_ok rule helsewhere.wellFormed.ends_alive hplace₁
    (helsewhere.arc?_self harc) doublyFreed
  dsimp only at hhanded
  rw [takers_congr helsewhere.nodes] at hhanded
  exact ⟨d₁, d₂, helsewhere, hreattaches, Except.ok.inj (hd₂.symm.trans hhanded), hok⟩

/-! ### What handing out does

An end that is handed out goes to the embedding rules that take it. The first is given the arc
itself, and each of the others a copy; if nobody takes it, that is reported. -/

section HandOut

variable {f : FreeEnd} {arc : Arc} {otherFreed : Bool} {taker : EmbeddingRule × NodeKey}
  {copies : List (EmbeddingRule × NodeKey)}

/-- An end that nobody takes is reported, once. -/
theorem remarks_handOut_nil (d : Derivation) (f : FreeEnd) (otherFreed : Bool) (arc : Arc) :
    (handOut d f otherFreed arc []).report.diagnostics.filter (·.isFor f.arc)
      = d.report.diagnostics.filter (·.isFor f.arc) ++ [.danglingEnd f.arc arc.name f.freed] := by
  refine (List.filter_append ..).trans (congrArg _ ?_)
  simp [Diagnostic.isFor]

/-- The arc goes to the first. -/
theorem arc?_handOut_cons (harc : d.host.arc? f.arc = some arc) :
    (handOut d f otherFreed arc (taker :: copies)).host.arc? f.arc
      = some (attachedArc f.freed otherFreed taker arc) := by
  have hlt := Registry.lt_of_get?_eq_some harc
  refine (Registry.get?_pushAll _ ?_).trans ((Registry.get?_modify ..).trans ?_)
  · rwa [Registry.length_cells_modify]
  · rw [if_pos rfl]
    exact congrArg (Option.map _) harc

/-- Copies go to the others. Each of them is attached as its own embedding rule asks, and not as
the first one does. -/
theorem copies_handOut_cons (d : Derivation) (f : FreeEnd) (otherFreed : Bool) (arc : Arc)
    (taker : EmbeddingRule × NodeKey) (copies : List (EmbeddingRule × NodeKey)) :
    List.Forall₂ (fun key other => ∃ name,
        (handOut d f otherFreed arc (taker :: copies)).host.arc? key
          = some (renamed (attachedArc f.freed false other arc) name))
      (d.host.arcs.nextKeys copies.length) copies := by
  have hpushed := (d.host.arcs.modify f.arc (attachedArc f.freed otherFreed taker)).forall₂_pushAll
    (copies.map (attachedArc f.freed false · arc))
  rw [List.forall₂_map_right_iff, List.length_map,
    Registry.nextKeys_congr (Registry.length_cells_modify ..)] at hpushed
  exact hpushed

end HandOut

/-! ### Arcs that are free at one end

The run over all free ends is cut in three: what is offered before the end, its own offer, and
what is offered after it. The first and the last part are elsewhere. -/

section Single

variable {f : FreeEnd} {arc : Arc}
  (hplace : ∀ m n, images.lookup m = some n → d.host.hasNode n = true)

include hplace

/-- **Where an arc has one free end among those to come, that end is handed out once**, in a
derivation that has the arc as it was, and nothing happens to the arc before or after. -/
theorem foldlM_reattach_single (hd : d.host.WellFormed) {part : List FreeEnd}
    (hpart : ∀ g ∈ part, g ∈ ends) (hfree : part.filter (·.arc == f.arc) = [f])
    (harc : d.host.arc? f.arc = some arc) {doublyFreed : List ArcKey}
    (hok : part.foldlM (reattach rule images doublyFreed) d = .ok done) :
    let otherFreed := doublyFreed.contains f.arc
    ∃ d₁ d₂, Elsewhere d d₁ ends f.arc ∧
      d₂ = handOut d₁ f otherFreed arc (takers rule images otherFreed d.host arc f) ∧
      Elsewhere d₂ done ends f.arc := by
  obtain ⟨before, after, rfl, hbefore, -, hafter⟩ := List.filter_eq_cons_iff.1 hfree
  have hother : ∀ {some : List FreeEnd}, (∀ g ∈ some, g ∈ before ++ f :: after) →
      (∀ g ∈ some, ¬ (g.arc == f.arc) = true) → ∀ g ∈ some, g ∈ ends ∧ g.arc ≠ f.arc :=
    fun hsome hne g hg => ⟨hpart g (hsome g hg), by simpa using hne g hg⟩
  obtain ⟨d₁, d₂, hbefore, hreattaches, hhanded, hok⟩ := foldlM_reattach_cut rule hd hplace
    (hother (fun g hg => List.mem_append_left _ hg) hbefore) harc hok
  have hplace₂ : ∀ m n, images.lookup m = some n → d₂.host.hasNode n = true := fun m n hm =>
    (hreattaches.hasNode n).trans ((hbefore.hasNode n).trans (hplace m n hm))
  obtain ⟨_, hdone, hafter⟩ := foldlM_reattach_elsewhere rule hreattaches.wellFormed hplace₂
    (hother (fun g hg => List.mem_append_right _ (List.mem_cons_of_mem _ hg))
      (List.filter_eq_nil_iff.1 hafter)) doublyFreed
  cases hok.symm.trans hdone
  exact ⟨d₁, d₂, hbefore, hhanded, hafter⟩

/-- **The reattachment of all free ends, cut at the one end of an arc.** -/
theorem reattachAll_cut (hd : d.host.WellFormed)
    (hfree : ends.filter (·.arc == f.arc) = [f]) (harc : d.host.arc? f.arc = some arc)
    (hok : reattachAll rule images ends d = .ok done) :
    ∃ d₁ d₂, Elsewhere d d₁ ends f.arc ∧
      d₂ = handOut d₁ f false arc (takers rule images false d.host arc f) ∧
      Elsewhere d₂ done ends f.arc := by
  have hsingle : (doublyFreed ends).contains f.arc = false := by
    rw [contains_doublyFreed, hfree]
    rfl
  have hcut := foldlM_reattach_single hplace hd (fun _ hg => hg) hfree harc hok
  rwa [hsingle] at hcut

/-- If nobody takes the end, the arc dangles, and one remark is made of it. -/
theorem reattachAll_of_takers_nil (hd : d.host.WellFormed)
    (hfree : ends.filter (·.arc == f.arc) = [f]) (harc : d.host.arc? f.arc = some arc)
    (htakers : takers rule images false d.host arc f = [])
    (hok : reattachAll rule images ends d = .ok done) :
    done.host.arc? f.arc = some arc ∧ done.report.diagnostics.filter (·.isFor f.arc)
      = d.report.diagnostics.filter (·.isFor f.arc) ++ [.danglingEnd f.arc arc.name f.freed] := by
  obtain ⟨d₁, d₂, hbefore, hhanded, hafter⟩ := reattachAll_cut hplace hd hfree harc hok
  rw [htakers] at hhanded
  subst hhanded
  refine ⟨hafter.arc?_self (hbefore.arc?_self harc), ?_⟩
  rw [hafter.remarks, remarks_handOut_nil, hbefore.remarks]

/-- If some rules take the end, the first of them holds the arc and the others hold copies of it,
which are named after it. The copies are told among the keys that were added: those of the ends
before come first, and those of the ends after come behind. -/
theorem reattachAll_of_takers_cons (hd : d.host.WellFormed)
    (hold : ∀ g ∈ ends, g.arc.index < d.host.arcs.cells.length)
    (hfree : ends.filter (·.arc == f.arc) = [f]) (harc : d.host.arc? f.arc = some arc)
    {taker : EmbeddingRule × NodeKey} {copies : List (EmbeddingRule × NodeKey)}
    (htakers : takers rule images false d.host arc f = taker :: copies)
    (hok : reattachAll rule images ends d = .ok done) :
    done.report.diagnostics.filter (·.isFor f.arc)
        = d.report.diagnostics.filter (·.isFor f.arc) ∧
      done.host.arc? f.arc = some (attachedArc f.freed false taker arc) ∧
      ∃ keys, keys <:+: done.report.addedArcs.drop d.report.addedArcs.length ∧
        (∀ key ∈ keys, d.host.arcs.cells.length ≤ key.index) ∧
        List.Forall₂ (fun key other => ∃ name,
          done.host.arc? key = some (renamed (attachedArc f.freed false other arc) name))
          keys copies := by
  obtain ⟨d₁, d₂, hbefore, hhanded, hafter⟩ := reattachAll_cut hplace hd hfree harc hok
  rw [htakers] at hhanded
  have hcopies := copies_handOut_cons d₁ f false arc taker copies
  have hfirst : d₂.host.arc? f.arc = some (attachedArc f.freed false taker arc) :=
    hhanded ▸ arc?_handOut_cons (hbefore.arc?_self harc)
  rw [← hhanded] at hcopies
  have hnew : ∀ key ∈ d₁.host.arcs.nextKeys copies.length,
      d.host.arcs.cells.length ≤ key.index := fun key hkey =>
    Nat.le_trans hbefore.arcs_length (Registry.mem_nextKeys.1 hkey).1
  refine ⟨?_, hafter.arc?_self hfirst, d₁.host.arcs.nextKeys copies.length, ?_, hnew, ?_⟩
  · rw [hafter.remarks, hhanded]
    exact hbefore.remarks
  · obtain ⟨earlier, hearlier⟩ := hbefore.addedArcs
    obtain ⟨later, hlater⟩ := hafter.addedArcs
    refine ⟨earlier, later, ?_⟩
    rw [← hlater, hhanded]
    show _ = ((d₁.report.addedArcs ++ _) ++ later).drop _
    rw [← hearlier]
    simp only [List.append_assoc, List.drop_left]
  · exact ((List.forall₂_and_left _ _).2 ⟨hnew, hcopies⟩).imp fun key other ⟨hle, name, hname⟩ =>
      ⟨name, hafter.arc?_of_le hold hle hname⟩

end Single

/-- An arc is attached as its embedding rule asks. -/
theorem attaches_attachedArc (taker : EmbeddingRule × NodeKey) (freed : ArcEnd) (arc : Arc) :
    taker.1.Attaches freed taker.2 arc (attachedArc freed false taker arc) where
  labels := rfl
  values := rfl
  typeTag := rfl
  doublyDirected := rfl
  directed := by
    show (arc.directed || taker.1.newDirection != .any) = true ↔ _
    rw [Bool.or_eq_true, bne_iff_ne]
  into h := by
    unfold attachedArc attachedEnds
    rw [h]
    exact ⟨rfl, rfl⟩
  outOf h := by
    unfold attachedArc attachedEnds
    rw [h]
    exact ⟨rfl, rfl⟩
  any h := by
    unfold attachedArc attachedEnds
    rw [h]
    cases freed <;> exact ⟨rfl, rfl⟩

end Reattachment

/-! ## The application

What has been said of the free ends is said of the host that an application leaves, with the
embedding rules of the rule. -/

/-- An arc that lets go of one end only. -/
theorem Arc.without_eq_withEnd {arc : Arc} {nodes : List NodeKey} {freed : ArcEnd} {gone : NodeKey}
    (hfreed : arc.atEnd freed = some gone) (hgone : gone ∈ nodes)
    (hother : ∀ node, arc.atEnd freed.opposite = some node → node ∉ nodes) :
    arc.without nodes = arc.withEnd freed none := by
  have hnone : (arc.atEnd freed).filter (!nodes.contains ·) = none := by
    rw [hfreed]
    simp [hgone]
  have hsame : (arc.atEnd freed.opposite).filter (!nodes.contains ·)
      = arc.atEnd freed.opposite := by
    cases hat : arc.atEnd freed.opposite with
    | none => rfl
    | some node => simp [Option.filter, hother node hat]
  unfold Arc.without
  cases freed with
  | source => exact congrArg₂ (fun source target => { arc with source, target }) hnone hsame
  | target => exact congrArg₂ (fun source target => { arc with source, target }) hsame hnone

/-- Every embedding rule finds the host image of its node of R. -/
theorem Prepared.exists_place {images : Update.NodeImages} {d : Derivation}
    (h : Prepared host rule o images d) (hrule : rule.Built) (hfits : o.Fits host rule) :
    ∀ e ∈ rule.embeddingRules,
      ∃ m n, rule.r.nodes.find? e.rNode = some m ∧ images.lookup m = some n := by
  intro e he
  obtain ⟨m, hm⟩ := hrule.exists_rNode e he
  obtain ⟨node, hnode, -⟩ := (hrule.coherent.r_wellFormed.nodes_indexed _ _).1 hm
  obtain ⟨n, hn⟩ := h.replaced.exists_placeAt hrule.coherent hfits
    (Graph.hasNode_iff.2 ⟨node, hnode⟩)
  exact ⟨m, n, hm, (h.lookup m).trans hn⟩

/-- **An embedding rule holds an arc** after an application: the arc joins the host image of
the rule's node of R with the other end of the arc that lost one. -/
def EmbeddingRule.Holds (e : EmbeddingRule) (rule : GrammarRule)
    (image : NodeKey → Option NodeKey) (after : Graph) (freed : ArcEnd) (arc : Arc)
    (key : ArcKey) : Prop :=
  ∃ attached rKey place, after.arc? key = some attached ∧
    rule.r.nodes.find? e.rNode = some rKey ∧ image rKey = some place ∧
    e.Attaches freed place arc attached

/-- What takes an end holds the arc that it is attached to. -/
theorem Reattachment.holds_of_mem_takers {images : Update.NodeImages}
    {image : NodeKey → Option NodeKey} (hr : rule.r.WellFormed)
    (himage : ∀ m, rule.r.hasNode m = true → image m = images.lookup m) {g after : Graph}
    {otherFreed : Bool} {lost arc attached : Arc} {f : FreeEnd} {freed : ArcEnd} {key : ArcKey}
    {taker : EmbeddingRule × NodeKey} (htaker : taker ∈ takers rule images otherFreed g lost f)
    (hafter : after.arc? key = some attached)
    (hattaches : taker.1.Attaches freed taker.2 arc attached) :
    taker.1.Holds rule image after freed arc key := by
  obtain ⟨m, hm, hplace⟩ := mem_admitting (takers_subset _ _ _ _ _ _ htaker)
  obtain ⟨node, hnode, -⟩ := (hr.nodes_indexed _ _).1 hm
  exact ⟨attached, m, taker.2, hafter, hm,
    (himage m (Graph.hasNode_iff.2 ⟨node, hnode⟩)).trans hplace, hattaches⟩

/-- **What offering one end among many comes to**, for an arc that keeps its other end: it
dangles and is reported, or it is held by those that took it. To hold the arc is said of a copy
in the same words, since a copy differs in its name only. -/
theorem Reattachment.reattachAll_holds {images : Update.NodeImages}
    {image : NodeKey → Option NodeKey} (hr : rule.r.WellFormed)
    (himage : ∀ m, rule.r.hasNode m = true → image m = images.lookup m) {d done : Derivation}
    (hplace : ∀ m n, images.lookup m = some n → d.host.hasNode n = true)
    (hd : d.host.WellFormed) {ends : List FreeEnd}
    (hold : ∀ g ∈ ends, g.arc.index < d.host.arcs.cells.length) {f : FreeEnd} {arc : Arc}
    (hfree : ends.filter (·.arc == f.arc) = [f])
    (harc : d.host.arc? f.arc = some (arc.withEnd f.freed none))
    (hok : reattachAll rule images ends d = .ok done) :
    let names := (takers rule images false d.host (arc.withEnd f.freed none) f).map Prod.fst
    (names = [] → done.host.arc? f.arc = some (arc.withEnd f.freed none) ∧
      done.report.diagnostics.filter (·.isFor f.arc)
        = d.report.diagnostics.filter (·.isFor f.arc)
          ++ [.danglingEnd f.arc arc.name f.freed]) ∧
    (names ≠ [] → done.report.diagnostics.filter (·.isFor f.arc)
        = d.report.diagnostics.filter (·.isFor f.arc) ∧
      (∀ attached, done.host.arc? f.arc = some attached → attached.name = arc.name) ∧
      ∃ copies, copies <:+: done.report.addedArcs.drop d.report.addedArcs.length ∧
        (∀ copy ∈ copies, d.host.arcs.cells.length ≤ copy.index) ∧
        List.Forall₂ (fun held e => e.Holds rule image done.host f.freed arc held)
          (f.arc :: copies) names) := by
  have hname : (arc.withEnd f.freed none).name = arc.name := by cases f.freed <;> rfl
  cases htakers : takers rule images false d.host (arc.withEnd f.freed none) f with
  | nil =>
    obtain ⟨hafter, hremarks⟩ := reattachAll_of_takers_nil hplace hd hfree harc htakers hok
    exact ⟨fun _ => ⟨hafter, hname ▸ hremarks⟩, fun hne => absurd rfl hne⟩
  | cons taker others =>
    -- whatever takes the end holds what it was given, be it the arc or a copy under another name
    have hholds : ∀ other ∈ taker :: others, ∀ held name, done.host.arc? held
        = some (renamed (attachedArc f.freed false other (arc.withEnd f.freed none)) name) →
        other.1.Holds rule image done.host f.freed arc held := fun other hmem held name hheld =>
      holds_of_mem_takers hr himage (htakers ▸ hmem) hheld
        ((attaches_attachedArc other f.freed _).of_withEnd.renamed name)
    obtain ⟨hremarks, hfirst, copies, hadded, hnew, hcopies⟩ :=
      reattachAll_of_takers_cons hplace hd hold hfree harc htakers hok
    refine ⟨nofun, fun _ => ⟨hremarks, fun attached hattached => ?_, copies, hadded, hnew, ?_⟩⟩
    · cases hattached.symm.trans hfirst
      exact hname
    · refine .cons (hholds taker List.mem_cons_self f.arc _
        (hfirst.trans (congrArg some (renamed_nameOf _).symm))) (List.forall₂_map_right_iff.2 ?_)
      exact (((List.forall₂_and_left _ _).2 ⟨fun other hmem => hmem, hcopies.flip⟩).imp
        fun other held ⟨hmem, name, hname⟩ =>
          hholds other (List.mem_cons_of_mem _ hmem) held name hname).flip

/-- The comatch finds the nodes of R where the embedding rules do. -/
theorem Prepared.comatch_node? {images : Update.NodeImages} {d : Derivation}
    (h : Prepared host rule o images d) (hhost : host.WellFormed) (hrule : rule.Coherent)
    (hdistinct : o.toAssignment.Distinct) {report : ApplyReport}
    (hresult : (apply host rule o).result = .ok report) (m : NodeKey)
    (hm : rule.r.hasNode m = true) :
    (rule.comatch o.toAssignment report).node? m = images.lookup m := by
  obtain ⟨_, done, _, happly, happlied⟩ := of_apply_eq_ok hhost hrule hdistinct hresult
  rw [happly] at hresult
  cases hresult
  exact (happlied.comatch_node? hrule hm).trans (h.lookup m).symm

/-- **What becomes of an arc that loses one end.** For a rule that was built, a well-formed host
and an option with distinct images that was applied, an arc that is no image and has one end at a
deleted node is offered to the embedding rules that admit it, in order, up to the first that
forbids duplication. If there are none, the end dangles, and that is all that is reported of the
arc. Otherwise nothing is reported; the first of them holds the arc, which keeps its name, and
each other one a copy that was added for it.

Of an arc that loses both ends the theorem says nothing. What becomes of those is
`apply_embeds_both`, where the outcome of one end depends on that of the other. -/
theorem apply_embeds (hhost : host.WellFormed) (hrule : rule.Built)
    (hdistinct : o.toAssignment.Distinct) {report : ApplyReport}
    (hresult : (apply host rule o).result = .ok report) {key : ArcKey} {arc : Arc}
    (harc : host.arc? key = some arc) (hnew : key ∉ o.arcImages) {freed : ArcEnd}
    {gone : NodeKey} (hfreed : arc.atEnd freed = some gone) (hgone : gone ∈ report.removedNodes)
    (hother : ∀ node, arc.atEnd freed.opposite = some node → node ∉ report.removedNodes) :
    let after := (apply host rule o).host
    let image := (rule.comatch o.toAssignment report).node?
    ∃ lKey lNode, rule.l.node? lKey = some lNode ∧ o.node? lKey = some gone ∧
      let takers := EmbeddingRule.upToForbidding (rule.embeddingRules.filter fun e =>
        e.Admits arc freed lNode.name ((arc.atEnd freed.opposite).bind after.node?))
      (takers = [] → after.arc? key = some (arc.withEnd freed none) ∧
        report.diagnostics.filter (·.isFor key) = [.danglingEnd key arc.name freed]) ∧
      (takers ≠ [] → report.diagnostics.filter (·.isFor key) = [] ∧
        (∀ attached, after.arc? key = some attached → attached.name = arc.name) ∧
        ∃ copies, copies <:+: report.addedArcs.drop rule.freshArcs.length ∧
          (∀ copy ∈ copies, host.arcs.cells.length ≤ copy.index) ∧
          List.Forall₂ (fun held e => e.Holds rule image after freed arc held)
            (key :: copies) takers) := by
  intro after image
  have hcoherent := hrule.coherent
  have hfits := fits_of_apply_eq_ok hcoherent hresult
  obtain ⟨d, done, images, happly, hprepared, hok, hreattaches⟩ :=
    exists_reattachAll_of_apply_eq_ok hhost hcoherent hdistinct hresult
  have hafter : after = done.host := congrArg Application.host happly
  rw [happly] at hresult
  cases hresult
  rw [hreattaches.removals.nodes, hprepared.replaced.removedNodes] at hgone hother
  -- the node of L whose image the arc was at
  obtain ⟨lKey, lNode, hmem, hlNode, hlImage⟩ := GrammarRule.exists_of_mem_goneNodes hgone
  have hfree := Deletion.filter_free_eq_singleton (d := { host }) hhost hdistinct hnew harc hmem
    hfreed hother
  refine ⟨lKey, lNode, hlNode, hlImage, ?_⟩
  -- what is left of the arc, and who takes it
  have hlost : d.host.arc? key = some (arc.withEnd freed none) := by
    rw [← Arc.without_eq_withEnd hfreed hgone hother]
    exact hprepared.replaced.arcs.get?_of_fate harc (GrammarRule.arcFate_other hnew arc)
  have hnames := Reattachment.map_takers (hprepared.exists_place hrule hfits)
    (f := ⟨key, freed, lKey⟩) hlNode d.host (arc.withEnd freed none)
  have hneighbor : ((arc.withEnd freed none).atEnd freed.opposite).bind d.host.node?
      = (arc.atEnd freed.opposite).bind after.node? := by
    rw [hafter]
    unfold Graph.node?
    rw [hreattaches.nodes]
    cases freed <;> rfl
  simp only [hneighbor, EmbeddingRule.admits_withEnd_iff] at hnames
  intro takers
  rw [show takers = _ from hnames.symm]
  have hle : host.arcs.cells.length ≤ d.host.arcs.cells.length :=
    hprepared.replaced.arcs.length ▸ Nat.le_add_right ..
  have hadded : d.report.addedArcs.length = rule.freshArcs.length := by
    rw [hprepared.replaced.addedArcs, Registry.length_nextKeys]
  have hheld := Reattachment.reattachAll_holds (f := ⟨key, freed, lKey⟩) hcoherent.r_wellFormed
    (hprepared.comatch_node? hhost hcoherent hdistinct (congrArg Application.result happly))
    (hprepared.hasNode hcoherent hdistinct hfits) hprepared.replaced.wellFormed
    (fun f hf => Nat.lt_of_lt_of_le (free_deleteAll (d := { host }) hhost f hf).2 hle) hfree hlost
    hok
  rw [hprepared.silent, hadded] at hheld
  rw [hafter]
  refine hheld.imp id fun htaken hne => ?_
  obtain ⟨hremarks, hname, copies, hcopies, hnew, hall⟩ := htaken hne
  exact ⟨hremarks, hname, copies, hcopies, fun copy hcopy => Nat.le_trans hle (hnew copy hcopy),
    hall⟩

/-- The rule that puts a new node in the place of a node and attaches each arc to it twice,
as it was and pointing away. -/
def GrammarRule.forkArcs : GrammarRule :=
  { GrammarRule.replaceNode .any with
    embeddingRules := [{ rNode := "c", allowDuplication := true },
      { rNode := "c", newDirection := .outOf }] }

/-- The rule passes every check of a draft. -/
theorem GrammarRule.forkArcs_built : GrammarRule.forkArcs.Built :=
  ⟨{ name := "replace node"
     l := forkArcs.l
     r := forkArcs.r
     embeddingRules := forkArcs.embeddingRules },
    ⟨Graph.membersDistinct_of_no_hyperarcs rfl, Graph.membersDistinct_of_no_hyperarcs rfl, nofun⟩,
    rfl⟩

/-- The arc of an edge loses its source. One embedding rule gets it, the other a copy. -/
theorem apply_embeds_forkArcs :
    let o : RuleOption := { nodes := [some ⟨0⟩] }
    let application := apply (.edge true) .forkArcs o
    ∃ report arc, application.result = .ok report ∧ (Graph.edge true).arc? ⟨0⟩ = some arc ∧
      report.diagnostics.filter (·.isFor ⟨0⟩) = [] ∧
      List.Forall₂ (fun held e => e.Holds .forkArcs
          (GrammarRule.forkArcs.comatch o.toAssignment report).node? application.host .source arc
          held)
        [⟨0⟩, ⟨1⟩] GrammarRule.forkArcs.embeddingRules := by
  intro o application
  have hdistinct : o.toAssignment.Distinct := ⟨by decide, by decide, by decide⟩
  have hresult : application.result
      = .ok { removedNodes := [⟨0⟩], addedNodes := [⟨2⟩], addedArcs := [⟨1⟩] } :=
    eq_ok_of_toOption (by decide +kernel)
  obtain ⟨arc, harc, hfreed⟩ : ∃ arc, (Graph.edge true).arc? ⟨0⟩ = some arc ∧
      arc.atEnd .source = some ⟨0⟩ := ⟨_, rfl, rfl⟩
  obtain ⟨_, lNode, -, -, -, htaken⟩ := apply_embeds (Graph.edge_wellFormed true)
    GrammarRule.forkArcs_built hdistinct hresult harc (by decide) hfreed (by decide)
    fun node hnode => by cases harc; cases hnode; decide
  -- both embedding rules admit any arc
  have hadmits : ∀ e ∈ GrammarRule.forkArcs.embeddingRules, ∀ arc freed name neighbor,
      e.Admits arc freed name neighbor := by
    intro e he arc freed name neighbor
    simp only [GrammarRule.forkArcs, List.mem_cons, List.not_mem_nil, or_false] at he
    rcases he with rfl | rfl <;> exact ⟨nofun, nofun, nofun, nofun, nofun, fun _ => .inl rfl⟩
  rw [List.filter_eq_self.2 fun e he => decide_eq_true (hadmits e he _ _ _ _)] at htaken
  obtain ⟨hremarks, -, copies, hcopies, -, hheld⟩ := htaken nofun
  have hall : copies = [⟨1⟩] := hcopies.eq_of_length (Nat.succ.inj hheld.length_eq)
  rw [hall] at hheld
  exact ⟨_, arc, hresult, harc, hremarks, hheld⟩

end GraphGrammar
