import GraphGrammar.Confluence
import GraphGrammar.Proofs.Application

/-!
# Options that outlive another application

Applying a rule may change elements that another option has to do with even if
the two have no image in common. It may delete the node at a dangling end of an
arc that is an image, and take members out of a hyperarc. But it touches neither
what the other option is checked for (`Replaced.fits_after`) nor what is looked
at to see which arcs were met back to front (`Replaced.reversedArcs_after`).

This is the lemma behind everything that is said of confluent options: the second one can still
be applied, finds the same images connected in the same way, and does what it would have done.
-/

namespace GraphGrammar

open Attributed

variable {host : Graph} {rule rule' : GrammarRule} {o o' : RuleOption}

/-! ## Options without common images

Confluence is decided by comparing the three lists of images. Keys that are images lie within the
host, so they are never those of elements that were added. -/

/-- Two assignments are apart if they have no image of any kind in common. -/
theorem Assignment.disjoint_iff {a b : Assignment} :
    a.disjoint b = true ↔ (∀ image ∈ a.nodeImages, image ∉ b.nodeImages) ∧
      (∀ image ∈ a.arcImages, image ∉ b.arcImages) ∧
      ∀ image ∈ a.hyperarcImages, image ∉ b.hyperarcImages := by
  simp [Assignment.disjoint, and_assoc]

/-- Confluence does not depend on which option comes first. -/
theorem areConfluent_symm (h : areConfluent o o' = true) : areConfluent o' o = true := by
  obtain ⟨hnodes, harcs, hhyperarcs⟩ := Assignment.disjoint_iff.1 h
  exact Assignment.disjoint_iff.2 ⟨fun image h' h => hnodes image h h',
    fun image h' h => harcs image h h', fun image h' h => hhyperarcs image h h'⟩

namespace RuleOption.Fits

variable (hrule : rule.Coherent) (h : o.Fits host rule)

include hrule h

/-! The images of an option that fits were there before anything is added. -/

/-- The images of nodes have slots of the host. -/
theorem nodeImages_lt {image : NodeKey} (himage : image ∈ o.nodeImages) :
    image.index < host.nodes.cells.length := by
  obtain ⟨key, hkey⟩ := Assignment.mem_nodeImages.1 himage
  exact Registry.lt_of_contains (h.of_node? hrule hkey).2.2

/-- The images of arcs have slots of the host. -/
theorem arcImages_lt {image : ArcKey} (himage : image ∈ o.arcImages) :
    image.index < host.arcs.cells.length := by
  obtain ⟨key, hkey⟩ := Assignment.mem_arcImages.1 himage
  exact Registry.lt_of_contains (h.contains_arc hrule hkey)

/-- The images of hyperarcs have slots of the host. -/
theorem hyperarcImages_lt {image : HyperArcKey} (himage : image ∈ o.hyperarcImages) :
    image.index < host.hyperarcs.cells.length := by
  obtain ⟨key, hkey⟩ := Assignment.mem_hyperarcImages.1 himage
  exact Registry.lt_of_contains (h.contains_hyperarc hrule hkey)

end RuleOption.Fits

/-! ## What the second option is checked for

The check looks at the images of the second option, which are no images of the first. What the
first application has done to them is to let go of nodes that it deleted, and none of these is an
image of the second. -/

namespace Replaced

variable {d : Derivation} (hreplaced : Replaced host rule o d) (hrule : rule'.Coherent)
  (hfits : o'.Fits host rule') (h : areConfluent o o' = true)

include hreplaced

/-- A node that is no image is as it was. -/
theorem node?_of_notMem {image : NodeKey} (hlt : image.index < host.nodes.cells.length)
    (himage : image ∉ o.nodeImages) : d.host.node? image = host.node? image := by
  refine (hreplaced.nodes.old image hlt).trans ?_
  show (host.node? image).bind _ = _
  cases host.node? image with
  | none => rfl
  | some node => exact GrammarRule.nodeFate_other himage node

/-- An arc that is no image has let go of nodes at most. -/
theorem arc?_of_notMem {image : ArcKey} (hlt : image.index < host.arcs.cells.length)
    (himage : image ∉ o.arcImages) :
    d.host.arc? image = (host.arc? image).map (·.without (rule.goneNodes o.toAssignment)) := by
  refine (hreplaced.arcs.old image hlt).trans ?_
  show (host.arc? image).bind _ = _
  cases host.arc? image with
  | none => rfl
  | some arc => exact GrammarRule.arcFate_other himage arc

/-- A hyperarc that is no image has let go of nodes at most. -/
theorem hyperarc?_of_notMem {image : HyperArcKey} (hlt : image.index < host.hyperarcs.cells.length)
    (himage : image ∉ o.hyperarcImages) : d.host.hyperarc? image
      = (host.hyperarc? image).map (·.without (rule.goneNodes o.toAssignment)) := by
  refine (hreplaced.hyperarcs.old image hlt).trans ?_
  show (host.hyperarc? image).bind _ = _
  cases host.hyperarc? image with
  | none => rfl
  | some hyperarc => exact GrammarRule.hyperarcFate_other himage hyperarc

omit hreplaced in
/-- An end at a node that stays is looked at with the same result. -/
theorem atEnd_without_beq {gone : List NodeKey} {node : NodeKey} (hnode : node ∉ gone) (arc : Arc)
    (e : ArcEnd) : ((arc.without gone).atEnd e == some node) = (arc.atEnd e == some node) := by
  rw [Arc.atEnd_without]
  cases arc.atEnd e with
  | none => rfl
  | some other =>
    by_cases hother : other ∈ gone
    · have hne : other ≠ node := fun heq => hnode (heq ▸ hother)
      simp [Option.filter, hother, hne]
    · simp [Option.filter, hother]

omit hreplaced in
/-- No image of the second option is deleted by the first. -/
theorem notMem_goneNodes (h : areConfluent o o' = true) {key node : NodeKey}
    (hnode : o'.node? key = some node) : node ∉ rule.goneNodes o.toAssignment := fun hgone =>
  (Assignment.disjoint_iff.1 h).1 node (rule.goneNodes_subset _ hgone)
    (Assignment.mem_nodeImages.2 ⟨key, hnode⟩)

omit hreplaced in
/-- Letting go of those nodes does not change whether an image agrees with its arc of L. -/
theorem arcAgrees_without (h : areConfluent o o' = true) (arc given : Arc) :
    o'.arcAgrees arc (given.without (rule.goneNodes o.toAssignment)) = o'.arcAgrees arc given := by
  have hagrees : ∀ (wanted : Option NodeKey) (e : ArcEnd),
      ((wanted.bind o'.node?).isNone ||
        (given.without (rule.goneNodes o.toAssignment)).atEnd e == wanted.bind o'.node?)
      = ((wanted.bind o'.node?).isNone || given.atEnd e == wanted.bind o'.node?) := by
    intro wanted e
    cases hnode : wanted.bind o'.node? with
    | none => rfl
    | some node =>
      obtain ⟨key, -, hkey⟩ := Option.bind_eq_some_iff.1 hnode
      rw [atEnd_without_beq (notMem_goneNodes h hkey)]
  -- an end that is lost was not at an image of the other option
  have hends : ∀ e f : ArcEnd, o'.endsAgree arc
      ((given.without (rule.goneNodes o.toAssignment)).atEnd e)
      ((given.without (rule.goneNodes o.toAssignment)).atEnd f)
      = o'.endsAgree arc (given.atEnd e) (given.atEnd f) := fun e f =>
    congrArg₂ (· && ·) (hagrees arc.source e) (hagrees arc.target f)
  exact congrArg₂ (· || ·) (hends .source .target)
    (congrArg (_ && ·) (hends .target .source))

include hrule hfits h

/-- **An option that fits still fits after a confluent one has been applied.** An image of the
one option is no image of the other, so it is still there, and only its references to deleted
nodes are lost. No node that the option asks for is among these. -/
theorem fits_after : o'.Fits d.host rule' := by
  obtain ⟨hnodes, harcs, hhyperarcs⟩ := Assignment.disjoint_iff.1 h
  refine { hfits with node := ?_, arc := ?_, hyperarc := ?_ }
  · intro key hkey hpositive
    obtain ⟨image, himage, halive⟩ := hfits.node key hkey hpositive
    have hmem : image ∈ o'.nodeImages := Assignment.mem_nodeImages.2 ⟨key, himage⟩
    have hsame := hreplaced.node?_of_notMem (hfits.nodeImages_lt hrule hmem)
      fun hmem' => hnodes image hmem' hmem
    rw [Graph.hasNode_iff, ← hsame, ← Graph.hasNode_iff] at halive
    exact ⟨image, himage, halive⟩
  · intro key arc harc hpositive
    obtain ⟨image, given, himage, hgiven, hagrees⟩ := hfits.arc key arc harc hpositive
    have hmem : image ∈ o'.arcImages := Assignment.mem_arcImages.2 ⟨key, himage⟩
    have hsame := hreplaced.arc?_of_notMem (hfits.arcImages_lt hrule hmem)
      fun hmem' => harcs image hmem' hmem
    rw [hgiven] at hsame
    exact ⟨image, _, himage, hsame, (arcAgrees_without h arc given).trans hagrees⟩
  · intro key hyperarc hhyperarc hpositive
    obtain ⟨image, given, himage, hgiven, hmembers⟩ :=
      hfits.hyperarc key hyperarc hhyperarc hpositive
    have hmem : image ∈ o'.hyperarcImages := Assignment.mem_hyperarcImages.2 ⟨key, himage⟩
    have hsame := hreplaced.hyperarc?_of_notMem (hfits.hyperarcImages_lt hrule hmem)
      fun hmem' => hhyperarcs image hmem' hmem
    rw [hgiven] at hsame
    refine ⟨image, _, himage, hsame, fun member hmember => ?_⟩
    obtain ⟨node, hnode, hgiven⟩ := hmembers member hmember
    exact ⟨node, hnode, HyperArc.mem_without.2 ⟨hgiven, notMem_goneNodes h hnode⟩⟩

/-- **The same arcs are met back to front.** The first application may take ends away from the
image, but only ends at nodes that it deleted. -/
theorem reversedArcs_after :
    Update.reversedArcs d.host rule' o' = Update.reversedArcs host rule' o' := by
  unfold Update.reversedArcs
  refine congrArg (List.map Prod.fst) (List.filter_congr fun (key, arc) _ => ?_)
  dsimp only
  unfold Update.isReversed
  cases himage : o'.arc? key with
  | none => rfl
  | some image =>
    have hmem : image ∈ o'.arcImages := Assignment.mem_arcImages.2 ⟨key, himage⟩
    rw [Option.bind_some, Option.bind_some, hreplaced.arc?_of_notMem (hfits.arcImages_lt hrule hmem)
      fun hmem' => (Assignment.disjoint_iff.1 h).2.1 image hmem' hmem]
    -- the test compares an end with an image, and no image is among the nodes that went
    have hlook : ∀ (given : Arc) (wanted : Option NodeKey) (node : NodeKey) (e : ArcEnd),
        wanted.bind o'.node? = some node →
        ((given.without (rule.goneNodes o.toAssignment)).atEnd e != some node)
          = (given.atEnd e != some node) := by
      intro given wanted node e hnode
      obtain ⟨key, -, hkey⟩ := Option.bind_eq_some_iff.1 hnode
      exact congrArg not (atEnd_without_beq (notMem_goneNodes h hkey) given e)
    cases host.arc? image with
    | none => rfl
    | some given =>
      dsimp only [Option.map_some]
      cases hsource : arc.source.bind o'.node? with
      | some node => exact hlook given arc.source node .source hsource
      | none =>
        cases htarget : arc.target.bind o'.node? with
        | some node => exact hlook given arc.target node .target htarget
        | none => rfl

end Replaced

end GraphGrammar
