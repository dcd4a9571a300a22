import GraphGrammar.Proofs.RelocatedApplication
import GraphGrammar.Proofs.Unplaced

/-!
# Applications do not look at positions

An application reads positions in two places: a node that R adds is put where the
transform of the option takes it, and a node of the context may be moved. Everything
else that an application does commutes with unplacing the host, phase by phase
(`Deletion.deleteAll_unplaced`, …, `settle_unplaced`), and these two places change
nothing but positions (`Addition.addNodes_unplaced`, `Update.unplaced_moveNodes`). So
the host after an application, what is reported, and whether and why the application is
refused are the same wherever the nodes are put (`apply_unplaced`).

Unplacing is taken into the derivation, with its report as it is, and into an interruption, with
the failure as it is. What a phase leads to is then one function of the unplaced derivation
(`unplacedResult`), and the lemmas for the phases are equations that compose.
-/

namespace GraphGrammar

open Attributed

/-! ## Steps that keep account

Keys and names of new elements are reported; they do not depend on positions. -/

/-- The derivation with the nodes of its host at the origin. -/
def Derivation.unplaced (d : Derivation) : Derivation := { d with host := d.host.unplaced }

/-- The interruption with the nodes of its host at the origin. -/
def Interrupted.unplaced (i : Interrupted) : Interrupted := { i with host := i.host.unplaced }

section

variable {α β τ : Type} {u : α → α} {v : β → β}

/-- What a step leads to, or the host at which it was interrupted, unplaced. -/
def unplacedResult (u : α → α) : Except Interrupted α → Except Interrupted α
  | .ok a => .ok (u a)
  | .error i => .error i.unplaced

/-- Chains of steps that commute with unplacing commute with it. -/
theorem bind_unplaced {f f' : α → Except Interrupted β} {x x' : Except Interrupted α}
    (hx : x' = unplacedResult u x) (hf : ∀ a, f' (u a) = unplacedResult v (f a)) :
    x' >>= f' = unplacedResult v (x >>= f) := by
  subst hx
  cases x with
  | ok a => exact hf a
  | error i => rfl

/-- A pass commutes with unplacing if each step of it does. -/
theorem foldlM_unplaced {f f' : α → τ → Except Interrupted α}
    (hf : ∀ a t, f' (u a) t = unplacedResult u (f a t)) :
    ∀ (ts : List τ) (a : α), ts.foldlM f' (u a) = unplacedResult u (ts.foldlM f a)
  | [], _ => rfl
  | t :: rest, a => by
    rw [List.foldlM_cons, List.foldlM_cons]
    exact bind_unplaced (hf a t) (foldlM_unplaced hf rest)

end

namespace Derivation

/-- An edit that is refused leaves the host as it was, and that host is unplaced. -/
theorem edit_unplaced {α : Type} (u : α → α) (host : Graph) (x : Outcome GraphError α) :
    edit host.unplaced (x.map u) = unplacedResult u (edit host x) := by
  cases x <;> rfl

theorem setEnd_unplaced (host : Graph) (key : ArcKey) (e : ArcEnd) (node : Option NodeKey) :
    setEnd host.unplaced key e node = unplacedResult Graph.unplaced (setEnd host key e node) := by
  unfold setEnd
  rw [Graph.setArcEnd_unplaced, edit_unplaced]

variable (d : Derivation)

theorem removeNode_unplaced (key : NodeKey) :
    d.unplaced.removeNode key = (d.removeNode key).unplaced := by
  unfold removeNode
  rw [show d.unplaced.host.removeNode key = _ from d.host.removeNode_unplaced key]
  cases d.host.removeNode key <;> rfl

theorem removeArc_unplaced (key : ArcKey) :
    d.unplaced.removeArc key = (d.removeArc key).unplaced := by
  unfold removeArc
  rw [show d.unplaced.host.removeArc key = _ from d.host.removeArc_unplaced key]
  cases d.host.removeArc key <;> rfl

theorem removeHyperArc_unplaced (key : HyperArcKey) :
    d.unplaced.removeHyperArc key = (d.removeHyperArc key).unplaced := by
  unfold removeHyperArc
  rw [show d.unplaced.host.removeHyperArc key = _ from d.host.removeHyperArc_unplaced key]
  cases d.host.removeHyperArc key <;> rfl

/-- A new node at the origin gets the key and the name it would get elsewhere. -/
theorem addNode_unplaced (node : Node) :
    d.unplaced.addNode node.unplaced = ((d.addNode node).1, (d.addNode node).2.unplaced) := by
  unfold addNode
  rw [show d.unplaced.host.addNodeUnique node.unplaced = _ from
    d.host.addNodeUnique_unplaced node]
  rfl

theorem addArc_unplaced (arc : Arc) :
    d.unplaced.addArc arc = unplacedResult unplaced (d.addArc arc) := by
  unfold addArc
  rw [show d.unplaced.host.addArcUnique arc = _ from d.host.addArcUnique_unplaced arc]
  cases d.host.addArcUnique arc <;> rfl

theorem addHyperArc_unplaced (hyperarc : HyperArc) :
    d.unplaced.addHyperArc hyperarc = unplacedResult unplaced (d.addHyperArc hyperarc) := by
  unfold addHyperArc
  rw [show d.unplaced.host.addHyperArcUnique hyperarc = _ from
    d.host.addHyperArcUnique_unplaced hyperarc]
  cases d.host.addHyperArcUnique hyperarc <;> rfl

/-- A change of the host that can fail, taken into the derivation. -/
theorem mapHostM_unplaced {f f' : Graph → Except Interrupted Graph}
    (hf : ∀ g, f' g.unplaced = unplacedResult Graph.unplaced (f g)) :
    d.unplaced.mapHostM f' = unplacedResult unplaced (d.mapHostM f) := by
  unfold mapHostM
  rw [show f' d.unplaced.host = _ from hf d.host]
  cases f d.host <;> rfl

end Derivation

/-! ## The check -/

/-- No check reads a position, so an option is refused for the same reason. -/
theorem RuleOption.check_unplaced (o : RuleOption) (host : Graph) (rule : GrammarRule) :
    o.unplaced.check host.unplaced rule.unplaced = o.check host rule := by
  have hnode : ∀ (key : NodeKey) (node : Node),
      o.unplaced.checkNode host.unplaced rule.unplaced (key, node.unplaced)
        = o.checkNode host rule (key, node) := by
    intro key node
    unfold checkNode
    rw [Graph.hasNode_unplaced]
    rfl
  unfold check
  rw [GrammarRule.l_unplaced, Graph.entries_unplaced]
  simp only [List.forM_eq_forM, List.forM_map, hnode]
  rfl

/-! ## Deletion

Each loop is a fold over a list that both sides share, so it commutes with unplacing if one
removal does. -/

namespace Deletion

variable (rule : GrammarRule) (o : RuleOption) (d : Derivation)

theorem deleteArcs_unplaced :
    deleteArcs rule.unplaced o.unplaced d.unplaced = (deleteArcs rule o d).unplaced :=
  List.foldl_hom Derivation.unplaced Derivation.removeArc_unplaced

theorem deleteHyperArcs_unplaced :
    deleteHyperArcs rule.unplaced o.unplaced d.unplaced = (deleteHyperArcs rule o d).unplaced :=
  List.foldl_hom Derivation.unplaced Derivation.removeHyperArc_unplaced

theorem deleteNodes_unplaced :
    deleteNodes rule.unplaced o.unplaced d.unplaced
      = ((deleteNodes rule o d).1.unplaced, (deleteNodes rule o d).2) := by
  have hstep : ∀ (matched : List ArcKey) (state : Derivation × List FreeEnd)
      (node : NodeKey × NodeKey), deleteNode matched (state.1.unplaced, state.2) node
        = ((deleteNode matched state node).1.unplaced, (deleteNode matched state node).2) := by
    intro matched state node
    unfold deleteNode
    dsimp only
    rw [Derivation.removeNode_unplaced]
    rfl
  unfold deleteNodes
  dsimp only
  rw [GrammarRule.l_unplaced, Graph.keys_unplaced]
  rw [← List.foldl_hom (fun state : Derivation × List FreeEnd => (state.1.unplaced, state.2))
    (hstep o.arcImages)]
  rfl

/-- **The same elements are removed and the same ends left free.** -/
theorem deleteAll_unplaced :
    deleteAll rule.unplaced o.unplaced d.unplaced
      = ((deleteAll rule o d).1.unplaced, (deleteAll rule o d).2) := by
  unfold deleteAll
  rw [deleteArcs_unplaced, deleteHyperArcs_unplaced, deleteNodes_unplaced]

end Deletion

/-! ## The context

Moving a node is the one update that unplacing does not commute with. It is a change that
unplacing undoes (`unplaced_moveNodes`). -/

namespace Update

variable (rule : GrammarRule) (o : RuleOption) (host : Graph)

/-- Which arcs lie back to front is a matter of ends. -/
theorem reversedArcs_unplaced :
    reversedArcs host.unplaced rule.unplaced o.unplaced = reversedArcs host rule o := rfl

/-- Attributes of nodes move along; a position is none of them. -/
theorem updateNodes_unplaced :
    updateNodes rule.unplaced o.unplaced host.unplaced = (updateNodes rule o host).unplaced := by
  unfold updateNodes
  rw [GrammarRule.nodePairs_unplaced, List.foldl_map]
  refine List.foldl_hom Graph.unplaced fun g pair => ?_
  obtain ⟨key, before, after⟩ := pair
  dsimp only [RuleOption.toAssignment_unplaced]
  cases o.node? key with
  | none => rfl
  | some image => exact g.modifyNode_unplaced image fun _ => rfl

/-- **Moving nodes changes nothing but positions.** -/
theorem unplaced_moveNodes : (moveNodes rule o host).unplaced = host.unplaced := by
  unfold moveNodes
  refine List.foldlRecOn (motive := fun g => g.unplaced = host.unplaced) _ _ rfl
    fun (g : Graph) hg pair _ => ?_
  obtain ⟨key, before, after⟩ := pair
  dsimp only
  cases o.node? key with
  | none => exact hg
  | some image =>
    exact (g.unplaced_modifyNode (f := moveNode o.positionTransform before.position after.position)
      image fun _ => rfl).trans hg

variable (images : NodeImages)

/-- Whether an end is set is decided by names. -/
theorem reconnectEnd_unplaced (image : ArcKey) (before after : Arc) (backToFront : Bool)
    (e : ArcEnd) :
    reconnectEnd rule.unplaced images image before after backToFront host.unplaced e
      = unplacedResult Graph.unplaced
        (reconnectEnd rule images image before after backToFront host e) := by
  unfold reconnectEnd
  rw [GrammarRule.l_unplaced, GrammarRule.r_unplaced, Graph.nodeName?_unplaced,
    Graph.nodeName?_unplaced]
  split
  · rfl
  · exact Derivation.setEnd_unplaced host image _ _

/-- An image is reconnected by edits of its ends, and no edit of an end asks for a position. -/
theorem updateArc_unplaced (reversed : List ArcKey) (pair : ArcKey × Arc × Arc) :
    updateArc rule.unplaced o.unplaced images reversed host.unplaced pair
      = unplacedResult Graph.unplaced (updateArc rule o images reversed host pair) := by
  obtain ⟨key, before, after⟩ := pair
  unfold updateArc
  dsimp only
  rw [RuleOption.toAssignment_unplaced, Graph.arc?_unplaced]
  cases o.arc? key with
  | none => rfl
  | some image =>
    dsimp only
    cases host.arc? image with
    | none => rfl
    | some given =>
      dsimp only
      have hrest : ∀ g : Graph,
          (ArcEnd.both.foldlM (reconnectEnd rule.unplaced images image before after
              (reversed.contains key && !(reversed.contains key && after.isOriented))) g.unplaced
            >>= fun done => pure (done.modifyArc image (·.moveAlong before after)))
          = unplacedResult Graph.unplaced
            (ArcEnd.both.foldlM (reconnectEnd rule images image before after
                (reversed.contains key && !(reversed.contains key && after.isOriented))) g
              >>= fun done => pure (done.modifyArc image (·.moveAlong before after))) := by
        intro g
        refine bind_unplaced (foldlM_unplaced (fun g e => ?_) _ g) fun _ => rfl
        exact reconnectEnd_unplaced rule g images image before after _ e
      split
      · refine bind_unplaced (Derivation.setEnd_unplaced host image .source given.target)
          fun half => ?_
        exact bind_unplaced (Derivation.setEnd_unplaced half image .target given.source) hrest
      · exact hrest host

theorem updateHyperArc_unplaced (pair : HyperArcKey × HyperArc × HyperArc) :
    updateHyperArc rule.unplaced o.unplaced images host.unplaced pair
      = unplacedResult Graph.unplaced (updateHyperArc rule o images host pair) := by
  obtain ⟨key, before, after⟩ := pair
  unfold updateHyperArc
  dsimp only
  rw [RuleOption.toAssignment_unplaced, GrammarRule.l_unplaced, GrammarRule.r_unplaced,
    Graph.nodeName?_unplaced, Graph.nodeName?_unplaced]
  cases o.hyperarc? key with
  | none => rfl
  | some image =>
    dsimp only
    refine bind_unplaced (foldlM_unplaced (fun g node => ?_) _ host) fun left => ?_
    · rw [Graph.removeFromHyperArc_unplaced, Derivation.edit_unplaced]
    refine bind_unplaced (foldlM_unplaced (fun g node => ?_) _ left) fun _ => rfl
    rw [Graph.addToHyperArc_unplaced, Derivation.edit_unplaced]

/-- All context arcs. The induction is on the pairs of arcs, with the host unplaced at each step.
-/
theorem updateArcs_unplaced (reversed : List ArcKey) :
    updateArcs rule.unplaced o.unplaced images reversed host.unplaced
      = unplacedResult Graph.unplaced (updateArcs rule o images reversed host) :=
  foldlM_unplaced (fun g => updateArc_unplaced rule o g images reversed) _ _

theorem updateHyperArcs_unplaced :
    updateHyperArcs rule.unplaced o.unplaced images host.unplaced
      = unplacedResult Graph.unplaced (updateHyperArcs rule o images host) :=
  foldlM_unplaced (fun g => updateHyperArc_unplaced rule o g images) _ _

end Update

/-! ## Addition

An addition is one of the two places where a position is read. It is written into the new node
and into nothing else. -/

namespace Addition

variable (rule : GrammarRule) (o : RuleOption)

/-- **A new node gets the same key and the same name wherever it is put.** The places are told by
keys, so they are equal and not only equal up to positions. -/
theorem addNodes_unplaced {d d' : Derivation} (h : d'.unplaced = d.unplaced) :
    (addNodes rule.unplaced o.unplaced d').1.unplaced = (addNodes rule o d).1.unplaced ∧
      (addNodes rule.unplaced o.unplaced d').2 = (addNodes rule o d).2 := by
  unfold addNodes
  rw [GrammarRule.r_unplaced, Graph.entries_unplaced, List.foldl_map]
  refine List.foldl_rel (r := fun s' s : Derivation × Update.NodeImages =>
    s'.1.unplaced = s.1.unplaced ∧ s'.2 = s.2) ⟨h, rfl⟩ fun ⟨key, node⟩ _ s' s hs => ?_
  obtain ⟨d', images'⟩ := s'
  obtain ⟨d, images⟩ := s
  obtain ⟨hd, rfl⟩ := hs
  unfold addNode
  dsimp only
  rw [RuleOption.toAssignment_unplaced,
    show rule.unplaced.contextNodes = rule.contextNodes from rfl]
  cases rule.contextNodes.left? key with
  | some lNode =>
    dsimp only
    cases o.node? lNode with
    | none => exact ⟨hd, rfl⟩
    | some image => exact ⟨hd, rfl⟩
  | none =>
    have hadded := d.addNode_unplaced
      { node with position := o.positionTransform.apply node.position }
    have hadded' := d'.addNode_unplaced
      { node.unplaced with position := o.unplaced.positionTransform.apply node.unplaced.position }
    rw [show d'.unplaced = d.unplaced from hd] at hadded'
    obtain ⟨hkey, hhost⟩ := Prod.mk.inj (hadded'.symm.trans hadded)
    exact ⟨hhost, congrArg (fun image => images' ++ [(key, image)]) hkey⟩

variable (images : Update.NodeImages) (d : Derivation)

/-- Arcs of R go between images of nodes, and images are keys. -/
theorem addArcs_unplaced :
    addArcs rule.unplaced images d.unplaced
      = unplacedResult Derivation.unplaced (addArcs rule images d) :=
  foldlM_unplaced (fun d _ => d.addArc_unplaced _) _ _

theorem addHyperArcs_unplaced :
    addHyperArcs rule.unplaced images d.unplaced
      = unplacedResult Derivation.unplaced (addHyperArcs rule images d) :=
  foldlM_unplaced (fun d _ => d.addHyperArc_unplaced _) _ _

end Addition

/-! ## Reattachment

No embedding rule asks where a node is. -/

namespace Reattachment

variable (rule : GrammarRule) (images : Update.NodeImages)

/-- Which embedding rules admit a free end is decided by names, labels and flags. -/
theorem admitting_unplaced (host : Graph) (arc : Arc) (free : FreeEnd) (otherFreed : Bool) :
    admitting host.unplaced rule.unplaced images arc free otherFreed
      = admitting host rule images arc free otherFreed := by
  have hneighbor := host.map_bind_node?_unplaced (f := (·.labels)) (fun _ => rfl)
    (if otherFreed then none else arc.atEnd free.freed.opposite)
  have hdeleted := rule.l.map_bind_node?_unplaced (f := (·.name)) (fun _ => rfl) (some free.lNode)
  unfold admitting
  dsimp only
  rw [hneighbor, GrammarRule.l_unplaced,
    show (rule.l.unplaced.node? free.lNode).map _ = _ from hdeleted]
  rfl

theorem attach_unplaced (host : Graph) (arc : Arc) (free : FreeEnd) (otherFreed : Bool)
    (e : EmbeddingRule) (target : NodeKey) :
    attach host.unplaced arc free otherFreed e target
      = unplacedResult Graph.unplaced (attach host arc free otherFreed e target) :=
  bind_unplaced (Derivation.setEnd_unplaced host free.arc .source _) fun half =>
    bind_unplaced (Derivation.setEnd_unplaced half free.arc .target _) fun _ => rfl

theorem reattach_unplaced (doubly : List ArcKey) (d : Derivation) (free : FreeEnd) :
    reattach rule.unplaced images doubly d.unplaced free
      = unplacedResult Derivation.unplaced (reattach rule images doubly d free) := by
  unfold reattach
  rw [show d.unplaced.host.arc? = d.host.arc? from rfl]
  cases d.host.arc? free.arc with
  | none => rfl
  | some arc =>
    dsimp only
    rw [show d.unplaced.host = d.host.unplaced from rfl, admitting_unplaced]
    cases admitting d.host rule images arc free (doubly.contains free.arc) with
    | nil => rfl
    | cons taker rest =>
      obtain ⟨e, target⟩ := taker
      dsimp only
      refine bind_unplaced (d.mapHostM_unplaced fun g => attach_unplaced g arc free _ e target)
        fun attached => ?_
      split
      · rfl
      · exact foldlM_unplaced (fun d _ => d.addArc_unplaced _) _ attached

/-- All free ends. The list of free ends is the same, as the deletion left the same ends free. -/
theorem reattachAll_unplaced (free : List FreeEnd) (d : Derivation) :
    reattachAll rule.unplaced images free d.unplaced
      = unplacedResult Derivation.unplaced (reattachAll rule images free d) :=
  foldlM_unplaced (reattach_unplaced rule images (doublyFreed free)) free d

end Reattachment

/-! ## The whole application -/

section

variable (rule : GrammarRule) (o : RuleOption)

/-- The phases that can fail, chained. -/
theorem settle_unplaced (images : Update.NodeImages) (reversed : List ArcKey)
    (free : List FreeEnd) (d : Derivation) :
    settle rule.unplaced o.unplaced images reversed free d.unplaced
      = unplacedResult Derivation.unplaced (settle rule o images reversed free d) := by
  refine bind_unplaced (d.mapHostM_unplaced fun g =>
    Update.updateArcs_unplaced rule o g images reversed) fun withContextArcs => ?_
  refine bind_unplaced (withContextArcs.mapHostM_unplaced fun g =>
    Update.updateHyperArcs_unplaced rule o g images) fun withContext => ?_
  refine bind_unplaced (Addition.addArcs_unplaced rule images withContext) fun withArcs => ?_
  refine bind_unplaced (Addition.addHyperArcs_unplaced rule images withArcs) fun withAll => ?_
  exact Reattachment.reattachAll_unplaced rule images free
    (withAll.mapHost (Update.updateGlobals rule o))

/-- What is left to do is the same for hosts that are equal up to positions. -/
theorem settle_congr (images : Update.NodeImages) (reversed : List ArcKey) (free : List FreeEnd)
    {d d' : Derivation} (h : d'.unplaced = d.unplaced) :
    unplacedResult Derivation.unplaced (settle rule.unplaced o.unplaced images reversed free d')
      = unplacedResult Derivation.unplaced (settle rule o images reversed free d) := by
  rw [← settle_unplaced, ← settle_unplaced, h, rule.unplaced_unplaced]
  rfl

/-- Both sides are unplaced at the end, since a node that is added is put where the transform
takes it, and on the left the transform is lost. -/
theorem carryOut_unplaced (host : Graph) :
    unplacedResult Derivation.unplaced (carryOut host.unplaced rule.unplaced o.unplaced)
      = unplacedResult Derivation.unplaced (carryOut host rule o) := by
  have hdeleted := Deletion.deleteAll_unplaced rule o { host }
  rw [carryOut_eq_settle, carryOut_eq_settle]
  dsimp only
  rw [show Derivation.mk host.unplaced {} = Derivation.unplaced { host } from rfl, hdeleted]
  generalize Deletion.deleteAll rule o { host } = deleted
  have hupdated :
      (deleted.1.unplaced.mapHost (Update.updateNodes rule.unplaced o.unplaced)).unplaced
      = (deleted.1.mapHost (Update.updateNodes rule o)).unplaced := by
    refine congrArg (Derivation.mk · deleted.1.report) ?_
    show (Update.updateNodes rule.unplaced o.unplaced deleted.1.host.unplaced).unplaced = _
    rw [Update.updateNodes_unplaced, Graph.unplaced_unplaced]
    rfl
  obtain ⟨hplaced, himages⟩ := Addition.addNodes_unplaced rule o hupdated
  -- moving nodes or leaving them changes nothing but positions
  have hmoved : ∀ (rule : GrammarRule) (o : RuleOption) (d : Derivation),
      (if rule.transformNodePositions then d.mapHost (Update.moveNodes rule o)
        else d).unplaced = d.unplaced := by
    intro rule o d
    split
    · exact congrArg (Derivation.mk · d.report) (Update.unplaced_moveNodes rule o d.host)
    · rfl
  rw [himages, Update.reversedArcs_unplaced]
  exact settle_congr rule o _ _ _ ((hmoved rule.unplaced o.unplaced _).trans
    (hplaced.trans (hmoved rule o _).symm))

/-- The application with the nodes of the host at the origin. -/
def Application.unplaced (a : Application) : Application := { a with host := a.host.unplaced }

/-- **An option is applied alike wherever the nodes are put**: it is refused for the
same reason, or leads to the same host up to positions and to the same report. -/
theorem apply_unplaced (host : Graph) :
    (apply host.unplaced rule.unplaced o.unplaced).unplaced = (apply host rule o).unplaced := by
  have hcarried := carryOut_unplaced rule o host
  unfold apply
  dsimp only
  rw [RuleOption.check_unplaced, show rule.unplaced.name = rule.name from rfl]
  split
  · exact congrArg (Application.mk · _) host.unplaced_unplaced
  generalize carryOut host.unplaced rule.unplaced o.unplaced = x', carryOut host rule o = x
    at hcarried ⊢
  cases x' with
  | error i' =>
    cases x with
    | error i =>
      exact congrArg (fun i : Interrupted => Application.mk i.host (.error i.failure))
        (Except.error.inj hcarried)
    | ok d => exact nomatch hcarried
  | ok d' =>
    cases x with
    | error i => exact nomatch hcarried
    | ok d =>
      exact congrArg (fun d : Derivation => Application.mk d.host (.ok d.report))
        (Except.ok.inj hcarried)

end

end GraphGrammar
