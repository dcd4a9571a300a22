import GraphGrammar.Proofs.Addition
import GraphGrammar.Proofs.Deletion
import GraphGrammar.Proofs.Update

/-!
# What becomes of an element of the host

At an application an element of the host is either the image of an element of L
outside the context, and then it goes; or the image of a context element, and
then it is brought to R; or no image at all, and then it stays as it is, except
that it lets go of nodes that went.

These three cases are told for every kind at once (`Registry.fate_gone`,
`Registry.fate_image`, `Registry.fate_other`). The fates of nodes, arcs and
hyperarcs are functions of the option and of the places of the nodes of R, and
`Fits` is what makes the images of the context survive.

These are all the cases, since distinct elements of L have distinct images. A fate is an optional
element: none if the element goes, and otherwise what it has become.
-/

namespace GraphGrammar

open Attributed

/-! ## Fates

The list of the images that go and the list of changes are computed from the rule. For one
element, at most one of them has something to say. -/

namespace Registry

variable {κ : Kind} {α : Type}

/-- An element is gone if its key is among some, and otherwise it is changed by the change that
is for it. Where several changes are for one key, the first of them is taken. In an application
there is at most one. -/
def fate (gone : List (Key κ)) (changes : List (Key κ × (α → α))) (key : Key κ) (a : α) :
    Option α :=
  if key ∈ gone then none else some (changeOf changes key a)

variable {l r : Registry κ α} {c : Correspondence (Key κ) (Key κ)} {keys : List (Key κ)}
  {image? : Key κ → Option (Key κ)} {f : Key κ → α → α → α → α} {key image rKey : Key κ}

/-- The image of an element of L outside the context goes. -/
theorem fate_gone {changes : List (Key κ × (α → α))} (hkey : key ∈ keys)
    (hright : c.right? key = none) (himage : image? key = some image) (a : α) :
    fate (c.gone keys image?) changes image a = none :=
  if_pos (Correspondence.mem_gone.2 ⟨key, hkey, hright, himage⟩)

/-- What is not an image is left alone. -/
theorem fate_other (h : ∀ key, image? key ≠ some image) (a : α) :
    fate (c.gone keys image?) (changesOf (pairsOf l r c) image? f) image a = some a := by
  have hgone : image ∉ c.gone keys image? := by
    intro hmem
    obtain ⟨key, -, -, himage⟩ := Correspondence.mem_gone.1 hmem
    exact h key himage
  rw [fate, if_neg hgone, changeOf_other fun pair _ => h pair.1]
  rfl

variable (hinj : ∀ {key other image}, image? key = some image → image? other = some image →
  key = other)

include hinj

/-- The image of a context element does not go. -/
theorem notMem_gone (hright : c.right? key = some rKey) (himage : image? key = some image) :
    image ∉ c.gone keys image? := by
  intro hmem
  obtain ⟨other, -, hnone, hother⟩ := Correspondence.mem_gone.1 hmem
  cases hinj himage hother
  rw [hright] at hnone
  exact nomatch hnone

/-- The image of a context element is brought to R. The change is told by the element of L and
its counterpart, not by what the host has there. -/
theorem fate_image {before after : α} (hbefore : l.get? key = some before)
    (hright : c.right? key = some rKey) (hafter : r.get? rKey = some after)
    (himage : image? key = some image) (a : α) :
    fate (c.gone keys image?) (changesOf (pairsOf l r c) image? f) image a
      = some (f key before after a) := by
  have hpair : (key, before, after) ∈ pairsOf l r c :=
    mem_pairsOf.2 ⟨hbefore, rKey, hright, hafter⟩
  rw [fate, if_neg (notMem_gone hinj hright himage),
    changeOf_image nodup_pairsOf hinj hpair himage]

end Registry

/-! ## The kinds

A node has labels, variables, a type tag and a position; an arc has ends and flags besides; a
hyperarc has members. What R says of each of these is put in by the fate of the kind. -/

namespace GrammarRule

/-- The places of the nodes of R in a host the rule is applied to. -/
def placeAt (rule : GrammarRule) (host : Graph) (a : Assignment) : NodeKey → Option NodeKey :=
  rule.place a (host.nodes.nextKeys rule.freshNodes.length)

/-- How the images of context nodes move, if they do. -/
def nodeMoves (rule : GrammarRule) (o : RuleOption) : List (NodeKey × (Node → Node)) :=
  if rule.transformNodePositions then
    Update.nodeChanges rule o fun before after =>
      Update.moveNode o.positionTransform before.position after.position
  else []

/-- What becomes of a node. -/
def nodeFate (rule : GrammarRule) (o : RuleOption) (key : NodeKey) (node : Node) : Option Node :=
  (Registry.fate (rule.goneNodes o.toAssignment)
    (Update.nodeChanges rule o fun before after node => Attributed.moveAlong node before after)
    key node).map (Registry.changeOf (rule.nodeMoves o) key)

/-- What becomes of an arc. -/
def arcFate (rule : GrammarRule) (o : RuleOption) (place : NodeKey → Option NodeKey)
    (reversed : List ArcKey) (key : ArcKey) (arc : Arc) : Option Arc :=
  Registry.fate (rule.goneArcs o.toAssignment)
    (Update.arcChanges rule o place reversed rule.arcPairs) key
    (arc.without (rule.goneNodes o.toAssignment))

/-- What becomes of a hyperarc. -/
def hyperarcFate (rule : GrammarRule) (o : RuleOption) (place : NodeKey → Option NodeKey)
    (key : HyperArcKey) (hyperarc : HyperArc) : Option HyperArc :=
  Registry.fate (rule.goneHyperArcs o.toAssignment)
    (Update.hyperarcChanges rule o place rule.hyperarcPairs) key
    (hyperarc.without (rule.goneNodes o.toAssignment))

variable {rule : GrammarRule} {o : RuleOption} {place : NodeKey → Option NodeKey}
  {reversed : List ArcKey}

/-- A node that is no image stays as it is. -/
theorem nodeFate_other {image : NodeKey} (h : image ∉ o.nodeImages) (node : Node) :
    rule.nodeFate o image node = some node := by
  have hother : ∀ key, o.node? key ≠ some image := fun key himage =>
    h (Assignment.mem_nodeImages.2 ⟨key, himage⟩)
  have hmoves : Registry.changeOf (rule.nodeMoves o) image = id := by
    unfold nodeMoves
    split
    · exact Registry.changeOf_other fun pair _ => hother pair.1
    · rfl
  unfold nodeFate
  rw [hmoves, Option.map_id]
  exact Registry.fate_other hother node

/-- An arc that is no image lets go of the nodes that go. -/
theorem arcFate_other {image : ArcKey} (h : image ∉ o.arcImages) (arc : Arc) :
    rule.arcFate o place reversed image arc
      = some (arc.without (rule.goneNodes o.toAssignment)) :=
  Registry.fate_other (fun key himage => h (Assignment.mem_arcImages.2 ⟨key, himage⟩)) _

/-- A hyperarc that is no image lets go of the nodes that go. -/
theorem hyperarcFate_other {image : HyperArcKey} (h : image ∉ o.hyperarcImages)
    (hyperarc : HyperArc) : rule.hyperarcFate o place image hyperarc
      = some (hyperarc.without (rule.goneNodes o.toAssignment)) :=
  Registry.fate_other (fun key himage => h (Assignment.mem_hyperarcImages.2 ⟨key, himage⟩)) _

/-- The moves are among the changes that a rule makes to positions, or there are none. -/
theorem nodeMoves_sublist : List.Sublist (rule.nodeMoves o)
    (Update.nodeChanges rule o fun before after =>
      Update.moveNode o.positionTransform before.position after.position) := by
  unfold nodeMoves
  split
  · exact .refl _
  · exact List.nil_sublist _

/-- A node that moves keeps its attributes. -/
theorem toAttributes_of_mem_nodeMoves {change : NodeKey × (Node → Node)}
    (hchange : change ∈ rule.nodeMoves o) (node : Node) :
    (change.2 node).toAttributes = node.toAttributes := by
  obtain ⟨_, _, _, -, -, hmove⟩ := Registry.mem_changesOf.1 (nodeMoves_sublist.subset hchange)
  rw [← hmove]
  rfl

/-- The moves change positions only. -/
theorem toAttributes_nodeMoves (key : NodeKey) (node : Node) :
    (Registry.changeOf (rule.nodeMoves o) key node).toAttributes = node.toAttributes := by
  rcases Registry.changeOf_eq_or (rule.nodeMoves o) key with hid | ⟨change, hchange, heq⟩
  · rw [hid]
    rfl
  · rw [heq]
    exact toAttributes_of_mem_nodeMoves hchange node

variable (hdistinct : o.toAssignment.Distinct)

include hdistinct

/-- A context node keeps its name and gets the labels, variables and type tag of
its counterpart; it may move. -/
theorem nodeFate_image {key image rKey : NodeKey} {before after : Node}
    (hbefore : rule.l.node? key = some before)
    (hright : rule.contextNodes.right? key = some rKey) (hafter : rule.r.node? rKey = some after)
    (himage : o.node? key = some image) (node : Node) :
    rule.nodeFate o image node
      = some (Registry.changeOf (rule.nodeMoves o) image
          (Attributed.moveAlong node before after)) :=
  congrArg (Option.map _)
    (Registry.fate_image (r := rule.r.nodes) hdistinct.node_inj hbefore hright hafter himage node)

/-- The image of a context arc is brought to R, after it has let go of the nodes that go. -/
theorem arcFate_image {key image rKey : ArcKey} {before after : Arc}
    (hbefore : rule.l.arc? key = some before) (hright : rule.contextArcs.right? key = some rKey)
    (hafter : rule.r.arc? rKey = some after) (himage : o.arc? key = some image) (arc : Arc) :
    rule.arcFate o place reversed image arc
      = some (Update.broughtArc rule place before after (reversed.contains key)
          (arc.without (rule.goneNodes o.toAssignment))) :=
  Registry.fate_image hdistinct.arc_inj hbefore hright hafter himage _

/-- The image of a context hyperarc is brought to R in the same way. -/
theorem hyperarcFate_image {key image rKey : HyperArcKey} {before after : HyperArc}
    (hbefore : rule.l.hyperarc? key = some before)
    (hright : rule.contextHyperArcs.right? key = some rKey)
    (hafter : rule.r.hyperarc? rKey = some after) (himage : o.hyperarc? key = some image)
    (hyperarc : HyperArc) :
    rule.hyperarcFate o place image hyperarc
      = some (Update.broughtHyperArc rule o place before after
          (hyperarc.without (rule.goneNodes o.toAssignment))) :=
  Registry.fate_image hdistinct.hyperarc_inj hbefore hright hafter himage _

end GrammarRule

end GraphGrammar
