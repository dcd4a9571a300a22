import GraphGrammar.Application.Reattachment
import GraphGrammar.Proofs.Addition
import GraphGrammar.Proofs.Update

/-!
# What offering a free end comes to

A free end whose arc is gone is passed over. Any other is reported as dangling,
or it is attached, and copies of the arc may be added. `Offered` says this of
the whole derivation, in the cases of the step. The step is never refused as
long as arcs are at nodes that are there (`Graph.EndsAlive`), which is less than
being well formed, and it keeps them so.

There are two descriptions here for two uses. `Offered` lists the cases, for what holds in each
of them, such as that nodes are not touched. `Reattachment.reattach_eq_ok` says which case it is,
for the theorems about what becomes of one end.
-/

namespace GraphGrammar

open Attributed

/-! ## Arcs at nodes that are there

While free ends are offered the graph is well formed but for its dangling ends, and those are
allowed. What keeps a step from being refused is that every attached end is at a live node. -/

/-- Every attached end of an arc is at a node of the graph. It is the part of well-formedness
that an offer needs and keeps. -/
def Graph.EndsAlive (g : Graph) : Prop :=
  ∀ key arc, g.arc? key = some arc → ∀ node ∈ arc.ends, g.hasNode node = true

namespace Graph.EndsAlive

variable {g : Graph}

/-- An arc may be changed if the ends it has afterwards are at live nodes. -/
theorem modifyArc (h : g.EndsAlive) {key : ArcKey} {f : Arc → Arc}
    (hf : ∀ arc, g.arc? key = some arc → ∀ node ∈ (f arc).ends, g.hasNode node = true) :
    (g.modifyArc key f).EndsAlive := by
  intro other arc harc
  refine (?_ : ∀ node ∈ arc.ends, g.hasNode node = true)
  have harc : (g.arcs.modify key f).get? other = some arc := harc
  rw [Registry.get?_modify] at harc
  split at harc
  · rename_i hkey
    obtain ⟨given, hgiven, rfl⟩ := Option.map_eq_some_iff.1 harc
    exact hf given (hkey ▸ hgiven)
  · exact h other arc harc

/-- Arcs may be appended if their ends are at live nodes. -/
theorem pushArcs (arcs : List Arc) :
    ∀ {g : Graph}, g.EndsAlive → (∀ arc ∈ arcs, ∀ node ∈ arc.ends, g.hasNode node = true) →
      ({ g with arcs := g.arcs.pushAll arcs } : Graph).EndsAlive := by
  induction arcs with
  | nil => exact fun h _ => h
  | cons first rest ih =>
    intro g h hends
    refine ih (g := { g with arcs := (g.arcs.pushUnique first).2 }) (fun key arc harc => ?_)
      fun arc harc => hends arc (List.mem_cons_of_mem _ harc)
    have harc : (g.arcs.pushUnique first).2.get? key = some arc := harc
    rw [Registry.get?_pushUnique] at harc
    split at harc
    · cases harc
      exact hends first List.mem_cons_self
    · exact h key arc harc

end Graph.EndsAlive

section PushAll

variable {κ : Kind} {α : Type} [Attributed α] {r : Registry κ α}

/-- What was there is found where it was after additions. -/
theorem Registry.get?_pushAll (elements : List α) {key : Key κ} (hlt : key.index < r.cells.length) :
    (r.pushAll elements).get? key = r.get? key := by
  rw [(rewritten_pushAll r elements).old key hlt, Option.bind_fun_some]

/-- Each addition takes a slot. -/
theorem Registry.length_cells_pushAll (elements : List α) (r : Registry κ α) :
    (r.pushAll elements).cells.length = r.cells.length + elements.length :=
  (rewritten_pushAll r elements).length

end PushAll

namespace Reattachment

variable {rule : GrammarRule} {images : Update.NodeImages}

/-! ## Attaching

An embedding rule that asks for a direction decides which end of the arc is attached, and the arc
is turned around where this is not the end that is free. -/

/-- An end that is attached is at the node it is attached to or where an end of the arc was.
Whichever way an embedding rule lays the arc, its two ends are the new node and an end that the
arc had. -/
theorem mem_attachedEnds {e : EmbeddingRule} {arc : Arc} {freed : ArcEnd} {otherFreed : Bool}
    {target node : NodeKey}
    (h : (attachedEnds e arc freed otherFreed target).1 = some node ∨
      (attachedEnds e arc freed otherFreed target).2 = some node) :
    node = target ∨ node ∈ arc.ends := by
  have hcases : ∀ {at' : Option NodeKey}, at' = some node →
      at' = some target ∨ at' = arc.source ∨ at' = arc.target →
      node = target ∨ node ∈ arc.ends := by
    rintro _ rfl (heq | heq | heq)
    · exact .inl (Option.some.inj heq)
    · exact .inr (Arc.mem_ends.2 (.inl heq.symm))
    · exact .inr (Arc.mem_ends.2 (.inr heq.symm))
  have hother : ∀ f : ArcEnd, arc.atEnd f = arc.source ∨ arc.atEnd f = arc.target := by
    intro f
    cases f with
    | source => exact .inl rfl
    | target => exact .inr rfl
  unfold attachedEnds at h
  have hopposite := hother freed.opposite
  cases otherFreed with
  | true =>
    cases freed with
    | source => exact h.elim (hcases · (.inl rfl)) (hcases · (.inr (.inr rfl)))
    | target => exact h.elim (hcases · (.inr (.inl rfl))) (hcases · (.inl rfl))
  | false =>
    rw [if_neg Bool.false_ne_true] at h
    dsimp only at h
    split at h
    · exact h.elim (hcases · (.inr hopposite)) (hcases · (.inl rfl))
    · exact h.elim (hcases · (.inr (.inl rfl))) (hcases · (.inl rfl))
    · exact h.elim (hcases · (.inl rfl)) (hcases · (.inr hopposite))
    · exact h.elim (hcases · (.inl rfl)) (hcases · (.inr (.inr rfl)))

/-- The node that an embedding rule attaches ends to is the place of its node of R. -/
theorem mem_admitting {host : Graph} {arc : Arc} {f : FreeEnd} {otherFreed : Bool}
    {taker : EmbeddingRule × NodeKey}
    (h : taker ∈ admitting host rule images arc f otherFreed) :
    ∃ m, rule.r.nodes.find? taker.1.rNode = some m ∧ images.lookup m = some taker.2 := by
  unfold admitting at h
  obtain ⟨e, -, heq⟩ := List.mem_filterMap.1 h
  obtain ⟨image, himage, rfl⟩ := Option.map_eq_some_iff.1 heq
  exact Option.bind_eq_some_iff.1 himage

/-- Whoever takes an end admitted it. -/
theorem takeDuplicating_subset :
    ∀ takers : List (EmbeddingRule × NodeKey), takeDuplicating takers ⊆ takers
  | [] => List.nil_subset _
  | (e, target) :: rest => by
    unfold takeDuplicating
    split
    · exact List.cons_subset_cons _ (takeDuplicating_subset rest)
    · exact List.cons_subset_cons _ (List.nil_subset _)

/-- Attaching an end changes one arc. -/
theorem attach_eq_ok {host : Graph} {arc : Arc} {f : FreeEnd} {otherFreed : Bool}
    {e : EmbeddingRule} {target : NodeKey} (halive : host.arcs.contains f.arc = true)
    (hends : ∀ node, node = target ∨ node ∈ arc.ends → host.hasNode node = true) :
    attach host arc f otherFreed e target = .ok (host.modifyArc f.arc fun given =>
      { given with
        source := (attachedEnds e arc f.freed otherFreed target).1
        target := (attachedEnds e arc f.freed otherFreed target).2
        directed := attachedDirected e arc }) := by
  have hsource : ∀ node, (attachedEnds e arc f.freed otherFreed target).1 = some node →
      host.hasNode node = true := fun node hnode => hends node (mem_attachedEnds (.inl hnode))
  have htarget : ∀ node, (attachedEnds e arc f.freed otherFreed target).2 = some node →
      host.hasNode node = true := fun node hnode => hends node (mem_attachedEnds (.inr hnode))
  unfold attach
  -- both ends are set one after the other, then the direction
  refine bind_eq_ok_iff.2 ⟨_, Update.setEnd_eq_ok .source halive hsource, ?_⟩
  refine bind_eq_ok_iff.2 ⟨_, Update.setEnd_eq_ok (g := host.modifyArc f.arc _) .target
    (Update.contains_modifyArc _ halive) htarget, ?_⟩
  show Except.ok _ = _
  rw [Update.modifyArc_modifyArc, Update.modifyArc_modifyArc]
  rfl

/-- An arc with a free end attached as an embedding rule says. -/
def attachedArc (freed : ArcEnd) (otherFreed : Bool) (taker : EmbeddingRule × NodeKey)
    (arc : Arc) : Arc :=
  { arc with
    source := (attachedEnds taker.1 arc freed otherFreed taker.2).1
    target := (attachedEnds taker.1 arc freed otherFreed taker.2).2
    directed := attachedDirected taker.1 arc }

/-- An arc that was attached has its ends at live nodes. -/
theorem hasNode_of_mem_attachedArc {g : Graph} {freed : ArcEnd} {otherFreed : Bool}
    {taker : EmbeddingRule × NodeKey} {arc : Arc} (htaker : g.hasNode taker.2 = true)
    (hends : ∀ node ∈ arc.ends, g.hasNode node = true) :
    ∀ node ∈ (attachedArc freed otherFreed taker arc).ends, g.hasNode node = true := by
  intro node hnode
  rcases mem_attachedEnds (Arc.mem_ends.1 hnode) with rfl | hnode
  · exact htaker
  · exact hends node hnode

/-- **What offering a free end comes to.** In each case the derivation afterwards is told in
full, so that a property of it can be proved by going through the cases. -/
inductive Offered (d : Derivation) (f : FreeEnd) (otherFreed : Bool) : Derivation → Prop
  | dead (h : d.host.arc? f.arc = none) : Offered d f otherFreed d
  | dangling {arc : Arc} (h : d.host.arc? f.arc = some arc) :
    Offered d f otherFreed (d.diagnose (.danglingEnd f.arc arc.name f.freed))
  | attached {arc : Arc} (h : d.host.arc? f.arc = some arc) (taker : EmbeddingRule × NodeKey)
    (copies : List (EmbeddingRule × NodeKey))
    (htakers : ∀ other ∈ taker :: copies, d.host.hasNode other.2 = true) :
    Offered d f otherFreed
      { host := { d.host with
          arcs := (d.host.arcs.modify f.arc (attachedArc f.freed otherFreed taker)).pushAll
            (copies.map (attachedArc f.freed false · arc)) }
        report := { d.report with
          addedArcs := d.report.addedArcs ++ d.host.arcs.nextKeys copies.length } }

namespace Offered

variable {d d' : Derivation} {f : FreeEnd} {otherFreed : Bool}

/-- No node is touched when an end is offered. -/
theorem nodes (h : Offered d f otherFreed d') : d'.host.nodes = d.host.nodes := by
  cases h <;> rfl

/-- The nodes that are there stay there. -/
theorem hasNode (h : Offered d f otherFreed d') (key : NodeKey) :
    d'.host.hasNode key = d.host.hasNode key := by
  unfold Graph.hasNode
  rw [h.nodes]

/-- Afterwards every attached end is at a live node again. -/
theorem endsAlive (h : Offered d f otherFreed d') (hends : d.host.EndsAlive) :
    d'.host.EndsAlive := by
  cases h with
  | dead => exact hends
  | dangling => exact hends
  | attached harc taker copies htakers =>
    refine .pushArcs (g := d.host.modifyArc f.arc _) _ (hends.modifyArc fun given hgiven => ?_)
      fun copy hcopy => ?_
    · exact hasNode_of_mem_attachedArc (htakers taker List.mem_cons_self)
        (hends f.arc given hgiven)
    · obtain ⟨other, hother, rfl⟩ := List.mem_map.1 hcopy
      exact hasNode_of_mem_attachedArc (g := d.host)
        (htakers other (List.mem_cons_of_mem _ hother)) (hends f.arc _ harc)

end Offered

variable {d : Derivation}

/-- Copies are appended one after another. A copy goes between the node that takes it and the
other end of the arc, both of which are alive, so none of these additions is refused. -/
theorem foldlM_addDuplicate (freed : ArcEnd) {arc : Arc}
    (takers : List (EmbeddingRule × NodeKey)) :
    ∀ {d : Derivation}, (∀ taker ∈ takers, d.host.hasNode taker.2 = true) →
      (∀ node ∈ arc.ends, d.host.hasNode node = true) →
      takers.foldlM (addDuplicate arc freed) d = .ok
        { host := { d.host with
            arcs := d.host.arcs.pushAll (takers.map (attachedArc freed false · arc)) }
          report := { d.report with
            addedArcs := d.report.addedArcs ++ d.host.arcs.nextKeys takers.length } } := by
  induction takers with
  | nil =>
    intro d _ _
    show Except.ok d = .ok { d with
      report := { d.report with addedArcs := d.report.addedArcs ++ [] } }
    rw [List.append_nil]
  | cons taker rest ih =>
    intro d htakers hends
    let next : Derivation :=
      { host := { d.host with
          arcs := (d.host.arcs.pushUnique (attachedArc freed false taker arc)).2 }
        report := { d.report with
          addedArcs := d.report.addedArcs ++ [d.host.arcs.nextKey] } }
    have hadd : addDuplicate arc freed d taker = .ok next := by
      show d.addArc (attachedArc freed false taker arc) = _
      exact Derivation.addArc_eq_ok
        (hasNode_of_mem_attachedArc (htakers taker List.mem_cons_self) hends)
    rw [List.foldlM_cons, List.length_cons,
      Registry.nextKeys_succ d.host.arcs (attachedArc freed false taker arc)]
    refine bind_eq_ok_iff.2 ⟨next, hadd, (ih (d := next)
      (fun other hother => htakers other (List.mem_cons_of_mem _ hother)) hends).trans ?_⟩
    show Except.ok (Derivation.mk _ { d.report with
      addedArcs := (d.report.addedArcs ++ [d.host.arcs.nextKey]) ++ _ }) = _
    rw [List.append_assoc]
    rfl

/-! ## The step as an equation

Who takes an end is decided first, in the graph as it is, and then the end is handed out. Nothing
that is handed out changes who takes it. -/

/-- The embedding rules that a free end goes to, each with the image of its node
of R: the first that admits it, and the later ones that get a copy. -/
def takers (rule : GrammarRule) (images : Update.NodeImages) (otherFreed : Bool) (host : Graph)
    (arc : Arc) (f : FreeEnd) : List (EmbeddingRule × NodeKey) :=
  if otherFreed then (admitting host rule images arc f otherFreed).take 1
  else takeDuplicating (admitting host rule images arc f otherFreed)

/-- Hands a free end to the embedding rules that take it. -/
def handOut (d : Derivation) (f : FreeEnd) (otherFreed : Bool) (arc : Arc) :
    List (EmbeddingRule × NodeKey) → Derivation
  | [] => d.diagnose (.danglingEnd f.arc arc.name f.freed)
  | taker :: copies =>
    { host := { d.host with
        arcs := (d.host.arcs.modify f.arc (attachedArc f.freed otherFreed taker)).pushAll
          (copies.map (attachedArc f.freed false · arc)) }
      report := { d.report with
        addedArcs := d.report.addedArcs ++ d.host.arcs.nextKeys copies.length } }

/-- Those that take an end are among those that admit it. -/
theorem takers_subset (rule : GrammarRule) (images : Update.NodeImages) (otherFreed : Bool)
    (host : Graph) (arc : Arc) (f : FreeEnd) :
    takers rule images otherFreed host arc f ⊆ admitting host rule images arc f otherFreed := by
  unfold takers
  split
  · exact List.take_subset ..
  · exact takeDuplicating_subset _

/-- Those that take an end attach it to a live node. -/
theorem hasNode_of_mem_takers {host : Graph}
    (hplace : ∀ m n, images.lookup m = some n → host.hasNode n = true) {otherFreed : Bool}
    {arc : Arc} {f : FreeEnd} {taker : EmbeddingRule × NodeKey}
    (h : taker ∈ takers rule images otherFreed host arc f) : host.hasNode taker.2 = true := by
  obtain ⟨m, -, hm⟩ := mem_admitting (takers_subset _ _ _ _ _ _ h)
  exact hplace m taker.2 hm

/-- An end that no embedding rule admits is taken by none. -/
theorem takers_of_admitting_nil {host : Graph} {arc : Arc} {f : FreeEnd} {otherFreed : Bool}
    (h : admitting host rule images arc f otherFreed = []) :
    takers rule images otherFreed host arc f = [] := by
  unfold takers
  rw [h]
  cases otherFreed <;> rfl

/-- The arc goes to the first embedding rule that admits its end, and copies go to the
later ones as long as that is allowed. -/
theorem takers_of_admitting_cons {host : Graph} {arc : Arc} {f : FreeEnd} {otherFreed : Bool}
    {e : EmbeddingRule} {target : NodeKey} {rest : List (EmbeddingRule × NodeKey)}
    (h : admitting host rule images arc f otherFreed = (e, target) :: rest) :
    takers rule images otherFreed host arc f = (e, target) ::
      if otherFreed || !e.allowDuplication then [] else takeDuplicating rest := by
  unfold takers
  rw [h]
  cases otherFreed with
  | true => rfl
  | false =>
    show takeDuplicating ((e, target) :: rest) = _
    rw [takeDuplicating]
    cases e.allowDuplication <;> rfl

/-- **Offering an end hands it to the embedding rules that take it**, where places and the ends
of arcs are alive. The arc is read before anything is written and all copies are made of what was
read. That it was attached in the meantime makes no difference to them. -/
theorem reattach_eq_ok (rule : GrammarRule) (hends : d.host.EndsAlive)
    (hplace : ∀ m n, images.lookup m = some n → d.host.hasNode n = true) {f : FreeEnd} {arc : Arc}
    (harc : d.host.arc? f.arc = some arc) (doublyFreed : List ArcKey) :
    let otherFreed := doublyFreed.contains f.arc
    reattach rule images doublyFreed d f
      = .ok (handOut d f otherFreed arc (takers rule images otherFreed d.host arc f)) := by
  intro otherFreed
  have htakers : ∀ taker ∈ takers rule images otherFreed d.host arc f,
      d.host.hasNode taker.2 = true := fun _ => hasNode_of_mem_takers hplace
  cases hadmitting : admitting d.host rule images arc f otherFreed with
  | nil =>
    rw [takers_of_admitting_nil hadmitting]
    unfold reattach
    rw [harc]
    dsimp only
    rw [hadmitting]
    rfl
  | cons first rest =>
    obtain ⟨e, target⟩ := first
    rw [takers_of_admitting_cons hadmitting] at htakers ⊢
    unfold reattach
    rw [harc]
    dsimp only
    rw [hadmitting]
    have htarget : d.host.hasNode target = true := htakers _ List.mem_cons_self
    have harcEnds := hends f.arc arc harc
    -- the arc that is changed is the one that was read
    have hattach : attach d.host arc f otherFreed e target
        = .ok (d.host.modifyArc f.arc (attachedArc f.freed otherFreed (e, target))) := by
      rw [attach_eq_ok (Registry.contains_iff.2 ⟨arc, harc⟩) fun node hnode =>
        hnode.elim (fun heq => heq ▸ htarget) (harcEnds node)]
      unfold Graph.modifyArc
      rw [Registry.modify_congr fun given hgiven => ?_]
      cases harc.symm.trans hgiven
      rfl
    refine (bind_of_eq_ok (Derivation.mapHostM_eq_ok hattach) _).trans ?_
    split
    · show _ = Except.ok (Derivation.mk _ { d.report with
        addedArcs := d.report.addedArcs ++ [] })
      rw [List.append_nil]
      rfl
    · rename_i hcopies
      rw [if_neg hcopies] at htakers
      refine (foldlM_addDuplicate (d := ⟨d.host.modifyArc f.arc _, d.report⟩) f.freed
        (takeDuplicating rest)
        (fun other hother => htakers other (List.mem_cons_of_mem _ hother)) harcEnds).trans ?_
      unfold handOut Graph.modifyArc
      dsimp only
      rw [Registry.nextKeys_congr (Registry.length_cells_modify d.host.arcs f.arc
        (attachedArc f.freed otherFreed (e, target))) (takeDuplicating rest).length]

/-- **Offering an end is never refused** where places and the ends of arcs are alive. What the
second condition asks is that the nodes of R are in their places. -/
theorem exists_offered (rule : GrammarRule) (hends : d.host.EndsAlive)
    (hplace : ∀ m n, images.lookup m = some n → d.host.hasNode n = true) (f : FreeEnd)
    (doublyFreed : List ArcKey) :
    ∃ d', reattach rule images doublyFreed d f = .ok d' ∧
      Offered d f (doublyFreed.contains f.arc) d' := by
  cases harc : d.host.arc? f.arc with
  | none =>
    refine ⟨d, ?_, .dead harc⟩
    unfold reattach
    rw [harc]
  | some arc =>
    refine ⟨_, reattach_eq_ok rule hends hplace harc doublyFreed, ?_⟩
    cases htakers : takers rule images (doublyFreed.contains f.arc) d.host arc f with
    | nil => exact .dangling harc
    | cons taker copies =>
      exact .attached harc taker copies fun other hother =>
        hasNode_of_mem_takers hplace (htakers ▸ hother)

end Reattachment

end GraphGrammar
