import GraphGrammar.Application.Basic
import GraphGrammar.Proofs.RelocatedFit

/-!
# Applications do not look at slots

A rule that is applied to a graph and to the same graph in other slots, at options
with the same images, is refused for the same reason or leads to two such graphs
again (`apply_relocated`). This asks nothing of the rule, the option or the graphs:
the phases of an application are followed one by one, and each of them does the same
to both hosts, down to the step at which it may be interrupted. The elements that are
added get names that are free in either graph, which are the same as the same names
are taken; and the ends that lost their node are listed in the order of the arcs, so
they are offered to the embedding rules in the same order.

The relation between the two derivations is carried through the phases in the order in which they
are gone through, and each phase has one lemma, named after it. Where an edit can fail the two
results are related by `Agree`: both fail, with hosts that correspond, or both go on. That
nothing is asked of the rule makes this longer than it would be for rules that apply, but it is
what allows a run to be followed through applications that fail halfway.
-/

namespace GraphGrammar

open Attributed

/-! ## Reports in other slots -/

/-- A diagnostic with other keys in it. -/
def Diagnostic.rekeyed (f : (κ : Kind) → Key κ → Key κ) : Diagnostic → Diagnostic
  | danglingEnd arc name freed => danglingEnd (f .arc arc) name freed
  | conflictSkipped optionNumber => conflictSkipped optionNumber
  | optionNotApplied optionNumber reason => optionNotApplied optionNumber reason
  | ruleLimitReached ruleSetIndex ruleNumber => ruleLimitReached ruleSetIndex ruleNumber
  | recognitionIncomplete reason => recognitionIncomplete reason

/-- The report of an application with other keys in it. -/
def ApplyReport.rekeyed (report : ApplyReport) (f : (κ : Kind) → Key κ → Key κ) : ApplyReport where
  removedNodes := report.removedNodes.map (f .node)
  removedArcs := report.removedArcs.map (f .arc)
  removedHyperArcs := report.removedHyperArcs.map (f .hyperarc)
  addedNodes := report.addedNodes.map (f .node)
  addedArcs := report.addedArcs.map (f .arc)
  addedHyperArcs := report.addedHyperArcs.map (f .hyperarc)
  diagnostics := report.diagnostics.map (·.rekeyed f)

/-- The host is the other one in other slots, and so is what was reported. -/
structure Derivation.Relocated (σ : Relocation) (d d' : Derivation) : Prop where
  host : d.host.Relocated σ d'.host
  report : d'.report = d.report.rekeyed σ.keys

/-- The host is the other one in other slots, and the cause of the failure is the
same. -/
structure Interrupted.Relocated (σ : Relocation) (i i' : Interrupted) : Prop where
  host : i.host.Relocated σ i'.host
  cause : i'.failure.cause = i.failure.cause

/-- A free end of an arc in another slot. -/
def FreeEnd.moved (σ : Relocation) (free : FreeEnd) : FreeEnd := { free with arc := σ.key free.arc }

/-- Images of nodes of R in other slots. -/
def Update.NodeImages.moved (σ : Relocation) (images : Update.NodeImages) : Update.NodeImages :=
  images.map fun (m, image) => (m, σ.key image)

/-- A node of R has its image in either list, or in none. -/
theorem Update.NodeImages.lookup_moved (σ : Relocation) (m : NodeKey) :
    ∀ images : Update.NodeImages, (moved σ images).lookup m = (images.lookup m).map σ.key
  | [] => rfl
  | (n, image) :: rest => by
    show List.lookup m ((n, σ.key image) :: moved σ rest) = _
    rw [List.lookup_cons, List.lookup_cons]
    split
    · rfl
    · exact lookup_moved σ m rest

theorem Update.NodeImages.lookup_moved_eq (σ : Relocation) (images : Update.NodeImages) :
    ((images.moved σ).lookup ·)
      = fun m => (images.lookup m).bind fun node => some (σ.key node) := by
  funext m
  rw [lookup_moved]
  cases images.lookup m <;> rfl

@[simp] theorem RuleOption.toAssignment_rekeyed (o : RuleOption)
    (f : (κ : Kind) → Key κ → Key κ) :
    (o.rekeyed f).toAssignment = o.toAssignment.rekeyed f := rfl

/-! ## The check

The check looks up images and compares what it finds with L. Every look-up gives the same
element, taken along. -/

section

variable {σ : Relocation} {host host' : Graph} (h : host.Relocated σ host')
include h

/-- The image of an arc, if there is one and it is alive, taken along. -/
theorem Graph.Relocated.bind_arc? (image : Option ArcKey) :
    (image.map σ.key).bind host'.arc? = (image.bind host.arc?).map σ.move := by
  cases image with
  | none => rfl
  | some key => exact h.arc? key

theorem Graph.Relocated.bind_hyperarc? (image : Option HyperArcKey) :
    (image.map σ.key).bind host'.hyperarc? = (image.bind host.hyperarc?).map σ.move := by
  cases image with
  | none => rfl
  | some key => exact h.hyperarc? key

namespace RuleOption

variable (o : RuleOption) (rule : GrammarRule)

/-- Each of the three checks fails for the same element of L, if it fails. -/
theorem checkNode_relocated : (o.rekeyed σ.keys).checkNode host' rule = o.checkNode host rule := by
  funext ⟨key, node⟩
  unfold checkNode
  dsimp only
  rw [toAssignment_rekeyed, Assignment.node?_rekeyed]
  cases o.node? key with
  | none => rfl
  | some image =>
    rw [Option.map_some, show (some (σ.keys .node image)).any host'.hasNode
      = (some image).any host.hasNode from h.hasNode image]
    rfl

omit h in
/-- Whether an arc lies as L says can be asked with translated ends. -/
theorem endsAgree_relocated (arc : Arc) (source target : Option NodeKey) :
    (o.rekeyed σ.keys).endsAgree arc (source.map σ.key) (target.map σ.key)
      = o.endsAgree arc source target := by
  have hagrees : ∀ wanted given : Option NodeKey,
      ((wanted.map σ.key).isNone || given.map σ.key == wanted.map σ.key)
        = (wanted.isNone || given == wanted) := by
    intro wanted given
    cases wanted with
    | none => rfl
    | some node =>
      rw [Bool.eq_iff_iff]
      simp [σ.map_key_eq_some_iff]
  unfold endsAgree
  simp only [toAssignment_rekeyed, Occurrence.Relocated.bind_rekeyed, hagrees]

theorem checkArc_relocated : (o.rekeyed σ.keys).checkArc host' rule = o.checkArc host rule := by
  have hagrees : ∀ arc image : Arc,
      (o.rekeyed σ.keys).arcAgrees arc (σ.move image) = o.arcAgrees arc image := by
    intro arc image
    unfold arcAgrees
    rw [σ.source_move, σ.target_move, endsAgree_relocated, endsAgree_relocated]
    rfl
  funext ⟨key, arc⟩
  unfold checkArc
  dsimp only
  rw [toAssignment_rekeyed, Assignment.arc?_rekeyed, Option.isNone_map]
  rw [show ((o.arc? key).map (σ.keys .arc)).bind host'.arc?
    = ((o.arc? key).bind host.arc?).map σ.move from h.bind_arc? _]
  cases (o.arc? key).bind host.arc? with
  | none => rfl
  | some image =>
    dsimp only [Option.map_some]
    rw [hagrees]

theorem checkHyperArc_relocated :
    (o.rekeyed σ.keys).checkHyperArc host' rule = o.checkHyperArc host rule := by
  funext ⟨key, hyperarc⟩
  unfold checkHyperArc
  dsimp only
  rw [toAssignment_rekeyed, Assignment.hyperarc?_rekeyed, Option.isNone_map]
  rw [show ((o.hyperarc? key).map (σ.keys .hyperarc)).bind host'.hyperarc?
    = ((o.hyperarc? key).bind host.hyperarc?).map σ.move from h.bind_hyperarc? _]
  cases (o.hyperarc? key).bind host.hyperarc? with
  | none => rfl
  | some image =>
    dsimp only [Option.map_some]
    simp only [o.toAssignment.any_contains_rekeyed]

/-- **An option passes the check in both graphs, or in none**, and is refused in the
same words. -/
theorem check_relocated : (o.rekeyed σ.keys).check host' rule = o.check host rule := by
  have hshape : (o.rekeyed σ.keys).hasShapeOf rule.l = o.hasShapeOf rule.l := by
    unfold hasShapeOf
    rw [toAssignment_rekeyed]
    unfold Assignment.rekeyed
    simp only [List.length_map]
  unfold check
  rw [hshape, checkNode_relocated h, checkArc_relocated h, checkHyperArc_relocated h]

end RuleOption

end

/-! ## Steps that keep account

A step of a derivation is an edit together with an entry in the report, so each lemma of the
relocated graphs is lifted to derivations here. -/

namespace Derivation

variable {σ : Relocation} {d d' : Derivation}

/-- An edit that is refused interrupts both derivations, and each leaves the host it has come to.
-/
theorem edit_relocated {α α' : Type} {R : α → α' → Prop} {host host' : Graph}
    (h : host.Relocated σ host') {x : Outcome GraphError α} {x' : Outcome GraphError α'}
    (hx : Agree (fun _ _ => True) R x x') :
    Agree (Interrupted.Relocated σ) R (edit host x) (edit host' x') :=
  hx.mapError fun _ _ _ => ⟨h, rfl⟩

theorem setEnd_relocated {host host' : Graph} (h : host.Relocated σ host') (key : ArcKey)
    (e : ArcEnd) (node : Option NodeKey) :
    Agree (Interrupted.Relocated σ) (Graph.Relocated σ) (setEnd host key e node)
      (setEnd host' (σ.key key) e (node.map σ.key)) :=
  edit_relocated h (h.setArcEnd key e node)

namespace Relocated

variable (h : d.Relocated σ d')
include h

theorem removeNode (key : NodeKey) :
    (d.removeNode key).Relocated σ (d'.removeNode (σ.key key)) := by
  unfold Derivation.removeNode
  cases hr : d.host.removeNode key with
  | none =>
    rw [h.host.removeNode_eq_none hr]
    exact h
  | some removed =>
    obtain ⟨after', hr', hafter⟩ := h.host.removeNode hr
    rw [hr']
    refine ⟨hafter, ?_⟩
    dsimp only
    rw [h.report]
    simp [ApplyReport.rekeyed, Relocation.keys]

theorem removeArc (key : ArcKey) : (d.removeArc key).Relocated σ (d'.removeArc (σ.key key)) := by
  unfold Derivation.removeArc
  cases hr : d.host.removeArc key with
  | none =>
    rw [h.host.removeArc_eq_none hr]
    exact h
  | some removed =>
    obtain ⟨after', hr', hafter⟩ := h.host.removeArc hr
    rw [hr']
    refine ⟨hafter, ?_⟩
    dsimp only
    rw [h.report]
    simp [ApplyReport.rekeyed, Relocation.keys]

theorem removeHyperArc (key : HyperArcKey) :
    (d.removeHyperArc key).Relocated σ (d'.removeHyperArc (σ.key key)) := by
  unfold Derivation.removeHyperArc
  cases hr : d.host.removeHyperArc key with
  | none =>
    rw [h.host.removeHyperArc_eq_none hr]
    exact h
  | some removed =>
    obtain ⟨after', hr', hafter⟩ := h.host.removeHyperArc hr
    rw [hr']
    refine ⟨hafter, ?_⟩
    dsimp only
    rw [h.report]
    simp [ApplyReport.rekeyed, Relocation.keys]

/-- A new node has corresponding keys and the same name in both. -/
theorem addNode (node : Node) : (d'.addNode node).1 = σ.key (d.addNode node).1 ∧
    (d.addNode node).2.Relocated σ (d'.addNode node).2 := by
  obtain ⟨hkey, hhost⟩ := h.host.addNodeUnique node
  refine ⟨hkey, hhost, ?_⟩
  show { d'.report with addedNodes := d'.report.addedNodes ++ [(d'.host.addNodeUnique node).1] } = _
  rw [h.report, hkey]
  simp [ApplyReport.rekeyed, Relocation.keys, Derivation.addNode]

theorem addArc (arc : Arc) :
    Agree (Interrupted.Relocated σ) (Relocated σ) (d.addArc arc) (d'.addArc (σ.move arc)) := by
  refine (edit_relocated h.host (h.host.addArcUnique arc)).bind fun new new' hnew => .ok ?_
  obtain ⟨hkey, hhost⟩ := hnew
  refine ⟨hhost, ?_⟩
  dsimp only
  rw [h.report, hkey]
  simp [ApplyReport.rekeyed, Relocation.keys]

theorem addHyperArc (hyperarc : HyperArc) :
    Agree (Interrupted.Relocated σ) (Relocated σ) (d.addHyperArc hyperarc)
      (d'.addHyperArc (σ.move hyperarc)) := by
  refine (edit_relocated h.host (h.host.addHyperArcUnique hyperarc)).bind
    fun new new' hnew => .ok ?_
  obtain ⟨hkey, hhost⟩ := hnew
  refine ⟨hhost, ?_⟩
  dsimp only
  rw [h.report, hkey]
  simp [ApplyReport.rekeyed, Relocation.keys]

theorem mapHost {f f' : Graph → Graph} (hf : (f d.host).Relocated σ (f' d'.host)) :
    (d.mapHost f).Relocated σ (d'.mapHost f') := ⟨hf, h.report⟩

/-- A change of the host that can fail is taken into the derivation, with the report left alone.
-/
theorem mapHostM {f f' : Graph → Except Interrupted Graph}
    (hf : Agree (Interrupted.Relocated σ) (Graph.Relocated σ) (f d.host) (f' d'.host)) :
    Agree (Interrupted.Relocated σ) (Relocated σ) (d.mapHostM f) (d'.mapHostM f') :=
  hf.bind fun _ _ hhost => .ok ⟨hhost, h.report⟩

theorem diagnose (diagnostic : Diagnostic) :
    (d.diagnose diagnostic).Relocated σ (d'.diagnose (diagnostic.rekeyed σ.keys)) := by
  refine ⟨h.host, ?_⟩
  unfold Derivation.diagnose
  dsimp only
  rw [h.report]
  simp [ApplyReport.rekeyed]

end Relocated

end Derivation

/-! ## Deletion

What is deleted is told by the rule and the option, in the order of L. The free ends are listed
in the order of the arcs of the host. -/

namespace Deletion

variable {σ : Relocation} {d d' : Derivation}

/-- Two folds over corresponding lists keep a relation that each step keeps. -/
theorem foldl_relocated {α α' τ τ' : Type} {R : α → α' → Prop} {m : τ → τ'} {f : α → τ → α}
    {f' : α' → τ' → α'} (hf : ∀ a a' t, R a a' → R (f a t) (f' a' (m t))) (xs : List τ) {a : α}
    {a' : α'} (h : R a a') : R (xs.foldl f a) ((xs.map m).foldl f' a') := by
  rw [List.foldl_map]
  exact List.foldl_rel h fun t _ b b' hb => hf b b' t hb

variable (h : d.Relocated σ d') (rule : GrammarRule) (o : RuleOption)
include h

/-- Arcs that L has beyond the context go first, so the deletion of nodes does not free their
ends. -/
theorem deleteArcs_relocated :
    (deleteArcs rule o d).Relocated σ (deleteArcs rule (o.rekeyed σ.keys) d') := by
  have himages : (o.toAssignment.rekeyed σ.keys).arc? = fun key => (o.arc? key).map σ.key :=
    funext (o.arc?_rekeyed σ.keys)
  unfold deleteArcs
  dsimp only
  rw [RuleOption.toAssignment_rekeyed, himages, ← List.map_filterMap]
  exact foldl_relocated (fun _ _ key h => h.removeArc key) _ h

theorem deleteHyperArcs_relocated :
    (deleteHyperArcs rule o d).Relocated σ (deleteHyperArcs rule (o.rekeyed σ.keys) d') := by
  have himages : (o.toAssignment.rekeyed σ.keys).hyperarc?
      = fun key => (o.hyperarc? key).map σ.key := funext (o.hyperarc?_rekeyed σ.keys)
  unfold deleteHyperArcs
  dsimp only
  rw [RuleOption.toAssignment_rekeyed, himages, ← List.map_filterMap]
  exact foldl_relocated (fun _ _ key h => h.removeHyperArc key) _ h

omit h in
/-- **The ends that a node leaves free are listed in the same order.** -/
theorem freeEnds_relocated {host host' : Graph} (h : host.Relocated σ host')
    (matched : List ArcKey) (lNode image : NodeKey) :
    freeEnds host' (matched.map (σ.keys .arc)) lNode (σ.key image)
      = (freeEnds host matched lNode image).map (FreeEnd.moved σ) := by
  unfold freeEnds
  rw [h.arcs.entries, List.flatMap_map, List.map_flatMap]
  congr 1
  funext ⟨key, arc⟩
  dsimp only
  rw [σ.contains_keys]
  split
  · rfl
  · rw [List.map_map]
    have hat : ∀ e, ((σ.move arc).atEnd e == some (σ.key image)) = (arc.atEnd e == some image) := by
      intro e
      rw [Bool.eq_iff_iff, beq_iff_eq, beq_iff_eq, σ.atEnd_move, σ.map_key_eq_some_iff]
    simp only [hat]
    rfl

/-- The free ends that are found on the way are collected in the same order. -/
theorem deleteNodes_relocated :
    (deleteNodes rule o d).1.Relocated σ (deleteNodes rule (o.rekeyed σ.keys) d').1 ∧
      (deleteNodes rule (o.rekeyed σ.keys) d').2
        = (deleteNodes rule o d).2.map (FreeEnd.moved σ) := by
  have himages : (fun key => ((o.toAssignment.rekeyed σ.keys).node? key).map (key, ·))
      = fun key => ((o.node? key).map (key, ·)).map fun (lNode, image) => (lNode, σ.key image) := by
    funext key
    rw [Assignment.node?_rekeyed, Option.map_map, Option.map_map]
    rfl
  unfold deleteNodes
  dsimp only
  rw [RuleOption.toAssignment_rekeyed, himages, ← List.map_filterMap, Assignment.arcImages_rekeyed]
  refine foldl_relocated (R := fun s s' : Derivation × List FreeEnd =>
    s.1.Relocated σ s'.1 ∧ s'.2 = s.2.map (FreeEnd.moved σ)) (fun s s' node hs => ?_) _ ⟨h, rfl⟩
  refine ⟨hs.1.removeNode node.2, ?_⟩
  show s'.2 ++ freeEnds s'.1.host _ node.1 (σ.key node.2) = _
  rw [hs.2, freeEnds_relocated hs.1.host, ← List.map_append]
  rfl

/-- **The same elements are deleted and the same ends left free**, translated. -/
theorem deleteAll_relocated :
    (deleteAll rule o d).1.Relocated σ (deleteAll rule (o.rekeyed σ.keys) d').1 ∧
      (deleteAll rule (o.rekeyed σ.keys) d').2 = (deleteAll rule o d).2.map (FreeEnd.moved σ) :=
  deleteNodes_relocated (deleteHyperArcs_relocated (deleteArcs_relocated h rule o) rule o) rule o

end Deletion

/-! ## The context

The pairs of elements of L and R that are kept are given by the rule and are the same for both,
so each pass is an induction on one list with two hosts that correspond. -/

/-- Attributes and flags move along wherever the ends are. -/
theorem Relocation.move_arc_moveAlong (σ : Relocation) (arc before after : Arc) :
    σ.move (arc.moveAlong before after) = (σ.move arc).moveAlong before after :=
  Update.mapEnds_moveAlong arc before after

namespace Update

variable {σ : Relocation} {host host' : Graph} (h : host.Relocated σ host') (rule : GrammarRule)
  (o : RuleOption)
include h

/-- Which arcs lie back to front is decided before anything is deleted, and is a matter of arcs
of L, so the lists are the same. The test compares an end of the image with the image of a node,
and both are taken along. -/
theorem reversedArcs_relocated :
    reversedArcs host' rule (o.rekeyed σ.keys) = reversedArcs host rule o := by
  have hne : ∀ (side : Option NodeKey) (node : NodeKey),
      (side.map σ.key != some (σ.key node)) = (side != some node) := by
    intro side node
    rw [Bool.eq_iff_iff, bne_iff_ne, bne_iff_ne, Ne, σ.map_key_eq_some_iff]
  have hreversed : ∀ entry : ArcKey × Arc, isReversed host' (o.rekeyed σ.keys) entry.1 entry.2
      = isReversed host o entry.1 entry.2 := by
    rintro ⟨key, arc⟩
    unfold isReversed
    rw [RuleOption.toAssignment_rekeyed, Assignment.arc?_rekeyed,
      Occurrence.Relocated.bind_rekeyed, Occurrence.Relocated.bind_rekeyed,
      show ((o.arc? key).map (σ.keys .arc)).bind host'.arc?
        = ((o.arc? key).bind host.arc?).map σ.move from h.bind_arc? _]
    cases (o.arc? key).bind host.arc? with
    | none => rfl
    | some image =>
      dsimp only [Option.map_some]
      rw [σ.source_move, σ.target_move]
      cases arc.source.bind o.node? with
      | some source => exact hne image.source source
      | none =>
        cases arc.target.bind o.node? with
        | some target => exact hne image.target target
        | none => rfl
  unfold reversedArcs
  exact congrArg (List.map _) (List.filter_congr fun entry _ => hreversed entry)

/-- A pass over the pairs of context nodes that changes their images in place. -/
theorem foldl_modifyNode_relocated (change : Node → Node → Node → Node) :
    (rule.nodePairs.foldl (fun g (key, before, after) =>
      match o.node? key with
      | none => g
      | some image => g.modifyNode image (change before after)) host).Relocated σ
    (rule.nodePairs.foldl (fun g (key, before, after) =>
      match (o.rekeyed σ.keys).node? key with
      | none => g
      | some image => g.modifyNode image (change before after)) host') := by
  refine List.foldl_rel h fun ⟨key, before, after⟩ _ g g' hg => ?_
  dsimp only
  rw [RuleOption.toAssignment_rekeyed, Assignment.node?_rekeyed]
  cases o.node? key with
  | none => exact hg
  | some image => exact hg.modifyNode image fun _ => rfl

theorem updateNodes_relocated :
    (updateNodes rule o host).Relocated σ (updateNodes rule (o.rekeyed σ.keys) host') :=
  foldl_modifyNode_relocated h rule o
    fun before after node => Attributed.moveAlong node before after

theorem moveNodes_relocated :
    (moveNodes rule o host).Relocated σ (moveNodes rule (o.rekeyed σ.keys) host') :=
  foldl_modifyNode_relocated h rule o fun before after =>
    moveNode o.positionTransform before.position after.position

theorem updateGlobals_relocated :
    (updateGlobals rule o host).Relocated σ (updateGlobals rule (o.rekeyed σ.keys) host') := by
  refine { h with globalLabels := ?_, globalVariables := ?_ }
  · unfold updateGlobals
    rw [h.globalLabels]
    rfl
  · unfold updateGlobals
    rw [h.globalVariables]

variable (images : NodeImages)

/-- An end is set if the names of its nodes differ between L and R, and then in both graphs. -/
theorem reconnectEnd_relocated (image : ArcKey) (before after : Arc) (backToFront : Bool)
    (e : ArcEnd) :
    Agree (Interrupted.Relocated σ) (Graph.Relocated σ)
      (reconnectEnd rule images image before after backToFront host e)
      (reconnectEnd rule (images.moved σ) (σ.key image) before after backToFront host' e) := by
  have hplace : (after.atEnd e).bind ((images.moved σ).lookup ·)
      = ((after.atEnd e).bind (images.lookup ·)).map σ.key := by
    cases after.atEnd e with
    | none => rfl
    | some node => exact NodeImages.lookup_moved σ node images
  unfold reconnectEnd
  split
  · exact .ok h
  · rw [hplace]
    exact Derivation.setEnd_relocated h image _ _

/-- A context arc is turned around, reconnected and changed, in this order, and each is an edit
of either graph. If one of these is refused, it is refused in both graphs, and what comes after
is done in neither. -/
theorem updateArc_relocated (reversed : List ArcKey) (pair : ArcKey × Arc × Arc) :
    Agree (Interrupted.Relocated σ) (Graph.Relocated σ)
      (updateArc rule o images reversed host pair)
      (updateArc rule (o.rekeyed σ.keys) (images.moved σ) reversed host' pair) := by
  obtain ⟨key, before, after⟩ := pair
  unfold updateArc
  dsimp only
  rw [RuleOption.toAssignment_rekeyed, Assignment.arc?_rekeyed]
  cases o.arc? key with
  | none => exact .ok h
  | some image =>
    dsimp only [Option.map_some]
    rw [show host'.arc? (σ.keys .arc image) = (host.arc? image).map σ.move from h.arc? image]
    cases host.arc? image with
    | none => exact .ok h
    | some given =>
      dsimp only [Option.map_some]
      rw [σ.source_move, σ.target_move]
      have hrest : ∀ g g' : Graph, g.Relocated σ g' →
          Agree (Interrupted.Relocated σ) (Graph.Relocated σ)
            (ArcEnd.both.foldlM (reconnectEnd rule images image before after
              (reversed.contains key && !(reversed.contains key && after.isOriented))) g
              >>= fun done => pure (done.modifyArc image (·.moveAlong before after)))
            (ArcEnd.both.foldlM (reconnectEnd rule (images.moved σ) (σ.key image) before after
              (reversed.contains key && !(reversed.contains key && after.isOriented))) g'
              >>= fun done => pure (done.modifyArc (σ.key image) (·.moveAlong before after))) := by
        intro g g' hg
        refine (Agree.foldlM_same (fun e _ g g' hg => ?_) hg).bind fun _ _ hdone => .ok ?_
        · exact reconnectEnd_relocated hg rule images image before after _ e
        · exact hdone.modifyArc image fun arc => (σ.move_arc_moveAlong arc before after).symm
      split
      · refine (Derivation.setEnd_relocated h image .source given.target).bind fun _ _ hhalf => ?_
        exact (Derivation.setEnd_relocated hhalf image .target given.source).bind hrest
      · exact hrest _ _ h

/-- Members that leave and members that come are given by nodes of L and R; their images are
taken along. -/
theorem updateHyperArc_relocated (pair : HyperArcKey × HyperArc × HyperArc) :
    Agree (Interrupted.Relocated σ) (Graph.Relocated σ)
      (updateHyperArc rule o images host pair)
      (updateHyperArc rule (o.rekeyed σ.keys) (images.moved σ) host' pair) := by
  have hnode : (o.toAssignment.rekeyed σ.keys).node? = fun key => (o.node? key).map σ.key :=
    funext (o.node?_rekeyed σ.keys)
  have hplace : ((images.moved σ).lookup ·) = fun m => (images.lookup m).map σ.key :=
    funext fun m => NodeImages.lookup_moved σ m images
  obtain ⟨key, before, after⟩ := pair
  unfold updateHyperArc
  dsimp only
  rw [RuleOption.toAssignment_rekeyed, Assignment.hyperarc?_rekeyed, hnode, hplace]
  cases o.hyperarc? key with
  | none => exact .ok h
  | some image =>
    dsimp only [Option.map_some]
    rw [← List.map_filterMap, ← List.map_filterMap]
    refine (Agree.foldlM (fun node _ g g' hg => ?_) h).bind fun _ _ hleft => ?_
    · exact Derivation.edit_relocated hg (hg.removeFromHyperArc image node)
    refine (Agree.foldlM (fun node _ g g' hg => ?_) hleft).bind fun _ _ hjoined => .ok ?_
    · exact Derivation.edit_relocated hg (hg.addToHyperArc image node)
    · exact hjoined.modifyHyperArc image fun hyperarc => (σ.move_moveAlong hyperarc _ _).symm

/-- All context arcs, one after the other, in the order of L. -/
theorem updateArcs_relocated (reversed : List ArcKey) :
    Agree (Interrupted.Relocated σ) (Graph.Relocated σ)
      (updateArcs rule o images reversed host)
      (updateArcs rule (o.rekeyed σ.keys) (images.moved σ) reversed host') :=
  Agree.foldlM_same (fun pair _ _ _ hg => updateArc_relocated hg rule o images reversed pair) h

theorem updateHyperArcs_relocated :
    Agree (Interrupted.Relocated σ) (Graph.Relocated σ)
      (updateHyperArcs rule o images host)
      (updateHyperArcs rule (o.rekeyed σ.keys) (images.moved σ) host') :=
  Agree.foldlM_same (fun pair _ _ _ hg => updateHyperArc_relocated hg rule o images pair) h

end Update

/-! ## Addition

The key of an element that is added is the next one in either graph, and these correspond. -/

namespace Addition

variable {σ : Relocation} {d d' : Derivation} (h : d.Relocated σ d') (rule : GrammarRule)
include h

/-- Nodes of R that have no image yet are added in the order of R, and the images of all nodes of
R are kept for what follows. -/
theorem addNodes_relocated (o : RuleOption) :
    (addNodes rule o d).1.Relocated σ (addNodes rule (o.rekeyed σ.keys) d').1 ∧
      (addNodes rule (o.rekeyed σ.keys) d').2 = (addNodes rule o d).2.moved σ := by
  unfold addNodes
  refine List.foldl_rel (r := fun s s' : Derivation × Update.NodeImages =>
    s.1.Relocated σ s'.1 ∧ s'.2 = s.2.moved σ) ⟨h, rfl⟩ fun ⟨key, node⟩ _ s s' hs => ?_
  obtain ⟨d, images⟩ := s
  obtain ⟨d', images'⟩ := s'
  obtain ⟨hd, rfl⟩ := hs
  unfold addNode
  dsimp only
  rw [RuleOption.toAssignment_rekeyed]
  cases rule.contextNodes.left? key with
  | some lNode =>
    dsimp only
    rw [Assignment.node?_rekeyed]
    cases o.node? lNode with
    | none => exact ⟨hd, rfl⟩
    | some image => exact ⟨hd, by simp [Update.NodeImages.moved, Relocation.keys]⟩
  | none =>
    obtain ⟨hkey, hadded⟩ :=
      hd.addNode { node with position := o.positionTransform.apply node.position }
    refine ⟨hadded, ?_⟩
    show Update.NodeImages.moved σ images ++ [(key, (d'.addNode _).1)] = _
    rw [show (o.rekeyed σ.keys).positionTransform = o.positionTransform from rfl, hkey]
    simp [Update.NodeImages.moved]

variable (images : Update.NodeImages)

theorem addArcs_relocated :
    Agree (Interrupted.Relocated σ) (Derivation.Relocated σ)
      (addArcs rule images d) (addArcs rule (images.moved σ) d') := by
  unfold addArcs
  refine Agree.foldlM_same (fun ⟨_, arc⟩ _ d d' hd => ?_) h
  have harc : arc.mapEnds ((images.moved σ).lookup ·)
      = σ.move (arc.mapEnds (images.lookup ·)) := by
    rw [Update.NodeImages.lookup_moved_eq]
    exact (Arc.mapEnds_mapEnds _ _ _).symm
  dsimp only
  rw [harc]
  exact hd.addArc _

theorem addHyperArcs_relocated :
    Agree (Interrupted.Relocated σ) (Derivation.Relocated σ)
      (addHyperArcs rule images d) (addHyperArcs rule (images.moved σ) d') := by
  unfold addHyperArcs
  refine Agree.foldlM_same (fun ⟨_, hyperarc⟩ _ d d' hd => ?_) h
  have hhyperarc : hyperarc.mapMembers ((images.moved σ).lookup ·)
      = σ.move (hyperarc.mapMembers (images.lookup ·)) := by
    rw [Update.NodeImages.lookup_moved_eq]
    exact (HyperArc.mapMembers_mapMembers _ _ _).symm
  dsimp only
  rw [hhyperarc]
  exact hd.addHyperArc _

end Addition

/-! ## Reattachment

Which embedding rule takes a free end is decided by labels, names and flags, and to which node
the end goes by the images of nodes of R. -/

namespace Reattachment

variable {σ : Relocation}

/-- An embedding rule with the node that takes the arc in another slot. -/
def moveTaker (σ : Relocation) (taker : EmbeddingRule × NodeKey) : EmbeddingRule × NodeKey :=
  (taker.1, σ.key taker.2)

/-- Where an embedding rule puts the two ends of an arc. -/
theorem attachedEnds_relocated (e : EmbeddingRule) (arc : Arc) (freed : ArcEnd) (otherFreed : Bool)
    (target : NodeKey) :
    attachedEnds e (σ.move arc) freed otherFreed (σ.key target)
      = ((attachedEnds e arc freed otherFreed target).1.map σ.key,
        (attachedEnds e arc freed otherFreed target).2.map σ.key) := by
  unfold attachedEnds
  rw [σ.source_move, σ.target_move, σ.atEnd_move]
  cases otherFreed with
  | true => cases freed <;> rfl
  | false => cases e.newDirection <;> cases freed <;> rfl

theorem takeDuplicating_relocated : ∀ takers : List (EmbeddingRule × NodeKey),
    takeDuplicating (takers.map (moveTaker σ)) = (takeDuplicating takers).map (moveTaker σ)
  | [] => rfl
  | (e, target) :: rest => by
    show takeDuplicating ((e, σ.key target) :: rest.map (moveTaker σ)) = _
    rw [takeDuplicating, takeDuplicating, takeDuplicating_relocated rest]
    split <;> rfl

theorem doublyFreed_relocated (free : List FreeEnd) :
    doublyFreed (free.map (FreeEnd.moved σ)) = (doublyFreed free).map (σ.keys .arc) := by
  have hcount : ∀ f : FreeEnd, (free.map (FreeEnd.moved σ)).countP (·.arc == (f.moved σ).arc)
      = free.countP (·.arc == f.arc) := by
    intro f
    rw [List.countP_map]
    refine List.countP_congr fun other _ => ?_
    show (σ.key other.arc == σ.key f.arc) = true ↔ _
    rw [beq_iff_eq, beq_iff_eq, σ.key_inj]
  unfold doublyFreed
  rw [List.filter_map, List.map_map, List.map_map]
  simp only [Function.comp_def, hcount]
  rfl

/-- The embedding rules that admit a free end are the same, in the same order. -/
theorem admitting_relocated {host host' : Graph} (h : host.Relocated σ host') (rule : GrammarRule)
    (images : Update.NodeImages) (arc : Arc) (free : FreeEnd) (otherFreed : Bool) :
    admitting host' rule (images.moved σ) (σ.move arc) (free.moved σ) otherFreed
      = (admitting host rule images arc free otherFreed).map (moveTaker σ) := by
  have hneighbor : (if otherFreed then none else (σ.move arc).atEnd free.freed.opposite).bind
      host'.node?
        = (if otherFreed then none else arc.atEnd free.freed.opposite).bind host.node? := by
    rw [σ.atEnd_move]
    cases otherFreed with
    | true => rfl
    | false =>
      cases arc.atEnd free.freed.opposite with
      | none => rfl
      | some node => exact h.node? node
  have htaker : (fun e : EmbeddingRule =>
      ((rule.r.nodes.find? e.rNode).bind ((images.moved σ).lookup ·)).map (e, ·))
        = fun e => (((rule.r.nodes.find? e.rNode).bind (images.lookup ·)).map (e, ·)).map
          (moveTaker σ) := by
    funext e
    cases rule.r.nodes.find? e.rNode with
    | none => rfl
    | some m =>
      show ((images.moved σ).lookup m).map _ = ((images.lookup m).map _).map _
      rw [Update.NodeImages.lookup_moved, Option.map_map, Option.map_map]
      rfl
  unfold admitting
  dsimp only
  rw [show (free.moved σ).freed = free.freed from rfl, hneighbor, htaker, List.map_filterMap]
  rfl

theorem attach_relocated {host host' : Graph} (h : host.Relocated σ host') (arc : Arc)
    (free : FreeEnd) (otherFreed : Bool) (e : EmbeddingRule) (target : NodeKey) :
    Agree (Interrupted.Relocated σ) (Graph.Relocated σ) (attach host arc free otherFreed e target)
      (attach host' (σ.move arc) (free.moved σ) otherFreed e (σ.key target)) := by
  unfold attach
  rw [show (free.moved σ).freed = free.freed from rfl, attachedEnds_relocated]
  refine (Derivation.setEnd_relocated h free.arc .source _).bind fun _ _ hhalf => ?_
  refine (Derivation.setEnd_relocated hhalf free.arc .target _).bind fun _ _ hwhole => .ok ?_
  exact hwhole.modifyArc free.arc fun _ => rfl

/-- A copy of the arc gets corresponding keys. -/
theorem addDuplicate_relocated {d d' : Derivation} (h : d.Relocated σ d') (arc : Arc)
    (freed : ArcEnd) (taker : EmbeddingRule × NodeKey) :
    Agree (Interrupted.Relocated σ) (Derivation.Relocated σ) (addDuplicate arc freed d taker)
      (addDuplicate (σ.move arc) freed d' (moveTaker σ taker)) := by
  have hcopy : ∀ (source target : Option NodeKey) (directed : Bool),
      ({ σ.move arc with source := source.map σ.key, target := target.map σ.key, directed } : Arc)
        = σ.move { arc with source, target, directed } := by
    intro source target directed
    cases source <;> cases target <;> rfl
  obtain ⟨e, target⟩ := taker
  unfold addDuplicate moveTaker
  dsimp only
  rw [attachedEnds_relocated, hcopy]
  exact h.addArc _

/-- A free end is handed to its takers. The arc is read again for each free end, as an earlier
one may have changed it, and it is found in both graphs in the same state. -/
theorem reattach_relocated {d d' : Derivation} (h : d.Relocated σ d') (rule : GrammarRule)
    (images : Update.NodeImages) (doubly : List ArcKey) (free : FreeEnd) :
    Agree (Interrupted.Relocated σ) (Derivation.Relocated σ) (reattach rule images doubly d free)
      (reattach rule (images.moved σ) (doubly.map (σ.keys .arc)) d' (free.moved σ)) := by
  unfold reattach
  rw [show (free.moved σ).arc = σ.key free.arc from rfl, h.host.arc?, σ.contains_keys]
  cases d.host.arc? free.arc with
  | none => exact .ok h
  | some arc =>
    dsimp only [Option.map_some]
    rw [admitting_relocated h.host]
    cases admitting d.host rule images arc free (doubly.contains free.arc) with
    | nil => exact .ok (h.diagnose (.danglingEnd free.arc arc.name free.freed))
    | cons taker rest =>
      obtain ⟨e, target⟩ := taker
      dsimp only [List.map_cons, moveTaker]
      refine (h.mapHostM (attach_relocated h.host arc free _ e target)).bind
        fun attached attached' hattached => ?_
      split
      · exact .ok hattached
      · rw [takeDuplicating_relocated]
        exact Agree.foldlM (fun taker _ _ _ hd => addDuplicate_relocated hd arc free.freed taker)
          hattached

/-- All free ends, in the order in which they were freed. -/
theorem reattachAll_relocated {d d' : Derivation} (h : d.Relocated σ d') (rule : GrammarRule)
    (images : Update.NodeImages) (free : List FreeEnd) :
    Agree (Interrupted.Relocated σ) (Derivation.Relocated σ) (reattachAll rule images free d)
      (reattachAll rule (images.moved σ) (free.map (FreeEnd.moved σ)) d') := by
  unfold reattachAll
  rw [doublyFreed_relocated]
  exact Agree.foldlM (fun f _ _ _ hd => reattach_relocated hd rule images (doublyFreed free) f) h

end Reattachment

/-! ## The whole application -/

/-- What is left to do of an application once the nodes of R have their images: the
context is reconnected, arcs and hyperarcs are added, the globals are changed, and the
free ends are reattached. -/
def settle (rule : GrammarRule) (o : RuleOption) (images : Update.NodeImages)
    (reversed : List ArcKey) (free : List FreeEnd) (d : Derivation) :
    Except Interrupted Derivation := do
  let withContextArcs ← d.mapHostM (Update.updateArcs rule o images reversed)
  let withContext ← withContextArcs.mapHostM (Update.updateHyperArcs rule o images)
  let withArcs ← Addition.addArcs rule images withContext
  let withAll ← Addition.addHyperArcs rule images withArcs
  Reattachment.reattachAll rule images free (withAll.mapHost (Update.updateGlobals rule o))

/-- The first phases cannot fail and are followed as equations. What can fail comes behind them
and is given a name of its own. -/
theorem carryOut_eq_settle (host : Graph) (rule : GrammarRule) (o : RuleOption) :
    carryOut host rule o =
      let deleted := Deletion.deleteAll rule o { host }
      let placed := Addition.addNodes rule o (deleted.1.mapHost (Update.updateNodes rule o))
      settle rule o placed.2 (Update.reversedArcs host rule o) deleted.2
        (if rule.transformNodePositions then placed.1.mapHost (Update.moveNodes rule o)
          else placed.1) := rfl

section

variable {σ : Relocation} {host host' : Graph} (h : host.Relocated σ host') (rule : GrammarRule)
  (o : RuleOption)

/-- The phases that can fail, chained. -/
theorem settle_relocated {d d' : Derivation} (h : d.Relocated σ d') (images : Update.NodeImages)
    (reversed : List ArcKey) (free : List FreeEnd) :
    Agree (Interrupted.Relocated σ) (Derivation.Relocated σ)
      (settle rule o images reversed free d)
      (settle rule (o.rekeyed σ.keys) (images.moved σ) reversed
        (free.map (FreeEnd.moved σ)) d') := by
  refine (h.mapHostM (Update.updateArcs_relocated h.host rule o images reversed)).bind
    fun _ _ harcs => ?_
  refine (harcs.mapHostM (Update.updateHyperArcs_relocated harcs.host rule o images)).bind
    fun _ _ hcontext => ?_
  refine (Addition.addArcs_relocated hcontext rule images).bind fun _ _ hwith => ?_
  refine (Addition.addHyperArcs_relocated hwith rule images).bind fun _ _ hall => ?_
  exact Reattachment.reattachAll_relocated
    (hall.mapHost (Update.updateGlobals_relocated hall.host rule o)) rule images free

include h

theorem carryOut_relocated :
    Agree (Interrupted.Relocated σ) (Derivation.Relocated σ) (carryOut host rule o)
      (carryOut host' rule (o.rekeyed σ.keys)) := by
  have hstart : Derivation.Relocated σ { host } { host := host' } := ⟨h, rfl⟩
  obtain ⟨hdeleted, hfree⟩ := Deletion.deleteAll_relocated hstart rule o
  have hupdated := hdeleted.mapHost (Update.updateNodes_relocated hdeleted.host rule o)
  obtain ⟨hplaced, himages⟩ := Addition.addNodes_relocated hupdated rule o
  have hmoved := hplaced.mapHost (Update.moveNodes_relocated hplaced.host rule o)
  rw [carryOut_eq_settle, carryOut_eq_settle]
  dsimp only
  rw [hfree, himages, Update.reversedArcs_relocated h]
  refine settle_relocated rule o ?_ _ _ _
  split
  · exact hmoved
  · exact hplaced

/-- **An option is applied alike in both graphs**: it is refused for the same reason,
or leads to two such graphs again. -/
theorem apply_relocated :
    (apply host rule o).host.Relocated σ (apply host' rule (o.rekeyed σ.keys)).host ∧
      Agree (fun failure failure' => failure'.cause = failure.cause)
        (fun report report' => report' = report.rekeyed σ.keys) (apply host rule o).result
        (apply host' rule (o.rekeyed σ.keys)).result := by
  unfold apply
  dsimp only
  rw [RuleOption.check_relocated h]
  split
  · exact ⟨h, .error rfl⟩
  have hcarried := carryOut_relocated h rule o
  generalize carryOut host rule o = x, carryOut host' rule (o.rekeyed σ.keys) = x' at hcarried ⊢
  cases hcarried with
  | error hinterrupted => exact ⟨hinterrupted.host, .error hinterrupted.cause⟩
  | ok hdone => exact ⟨hdone.host, .ok hdone.report⟩

end

end GraphGrammar
