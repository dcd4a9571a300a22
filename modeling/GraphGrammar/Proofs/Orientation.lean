import GraphGrammar.Proofs.Fitting
import GraphGrammar.Proofs.Update

/-!
# Which way an arc lies

An arc of L may be met back to front, and the applier finds out anew whether it
was. `exists_atEnd_of_lies` says that it finds a way in which the image does lie,
whichever way the matcher took it. From there, bringing the arc to R puts each
end of R where it belongs (`atEnd_broughtArc`): an end that L and R name alike
stays at the image of its node, and any other goes to the place of its node, at
the same side of the image. The sides are exchanged if the arc was met back to
front and R does not orient it.

The applier looks at one end only, the source if it has an image and the target otherwise. That
is enough: if the end that is looked at is in place although the arc of L lies against its image,
then the image is a loop, and the arc lies along it as well. -/

namespace GraphGrammar

namespace Update

variable {rule : GrammarRule} {o : RuleOption} {host : Graph}

/-! ## Arcs met back to front

There are two ways for an arc of L to lie in its image. A match says that it lies in one of them,
and the applier asks which by comparing the image of one end with the end of the host arc. -/

/-- An arc of L is among those met back to front if the test of it says so. -/
theorem contains_reversedArcs {key : ArcKey} {arc : Arc} (harc : rule.l.arc? key = some arc) :
    (reversedArcs host rule o).contains key = isReversed host o key arc := by
  rw [Bool.eq_iff_iff, List.contains_iff_mem]
  unfold reversedArcs
  rw [List.mem_map]
  constructor
  · rintro ⟨⟨_, other⟩, hmem, rfl⟩
    obtain ⟨hentry, hreversed⟩ := List.mem_filter.1 hmem
    cases harc.symm.trans (Registry.mem_entries_iff.1 hentry)
    exact hreversed
  · exact fun hreversed =>
      ⟨(key, arc), List.mem_filter.2 ⟨Registry.mem_entries_iff.2 harc, hreversed⟩, rfl⟩

/-- Each attached end of an arc of L is at the image of its node, at the same
end of the image. -/
def Along (o : RuleOption) (arc given : Arc) : Prop :=
  ∀ e node, arc.atEnd e = some node → ∃ place, o.node? node = some place ∧
    given.atEnd e = some place

/-- Each attached end of an arc of L is at the image of its node, at the
opposite end of the image. -/
def Against (o : RuleOption) (arc given : Arc) : Prop :=
  ∀ e node, arc.atEnd e = some node → ∃ place, o.node? node = some place ∧
    given.atEnd e.opposite = some place

/-- What the matcher calls lying along is lying along. -/
theorem along_of_liesAlong {condition : ArcCondition} {arc given : Arc}
    (h : condition.LiesAlong o.toAssignment arc given.source given.target) : Along o arc given := by
  have hmet : ∀ {at' given' : Option NodeKey}, condition.EndMet o.toAssignment at' given' →
      ∀ node, at' = some node → ∃ place, o.node? node = some place ∧ given' = some place := by
    rintro _ _ hmet node rfl
    exact hmet
  intro e
  cases e with
  | source => exact hmet h.1
  | target => exact hmet h.2

/-- An arc that is turned around has its ends exchanged. -/
theorem atEnd_turned (arc : Arc) (e : ArcEnd) : arc.turned.atEnd e = arc.atEnd e.opposite := by
  cases e <;> rfl

/-- An image that suits lies one way or the other. -/
theorem along_or_against_of_suits {key : ArcKey} {arc given : Arc}
    (h : rule.ArcSuits o.toAssignment key arc given) : Along o arc given ∨ Against o arc given := by
  rcases h.lies with hlies | ⟨-, hlies⟩
  · exact .inl (along_of_liesAlong hlies)
  · have halong : Along o arc given.turned := along_of_liesAlong hlies
    refine .inr fun e node hend => ?_
    rw [← atEnd_turned]
    exact halong e node hend

section

variable {key image : ArcKey} {arc given : Arc} (himage : o.arc? key = some image)
  (hgiven : host.arc? image = some given)

include himage hgiven

/-- The source is what is looked at first. -/
theorem isReversed_of_source {place : NodeKey} (h : arc.source.bind o.node? = some place) :
    isReversed host o key arc = (given.source != some place) := by
  simp [isReversed, himage, hgiven, h]

/-- If the source has no image the target is looked at. -/
theorem isReversed_of_target {place : NodeKey} (hsource : arc.source.bind o.node? = none)
    (h : arc.target.bind o.node? = some place) :
    isReversed host o key arc = (given.target != some place) := by
  simp [isReversed, himage, hgiven, hsource, h]

/-- An arc that dangles at both ends is not met back to front. -/
theorem isReversed_of_dangling (hsource : arc.source.bind o.node? = none)
    (htarget : arc.target.bind o.node? = none) : isReversed host o key arc = false := by
  simp [isReversed, himage, hgiven, hsource, htarget]

/-- Neither end that is looked at is out of place. -/
theorem isReversed_of_along (h : Along o arc given) : isReversed host o key arc = false := by
  cases hsource : arc.source with
  | some node =>
    obtain ⟨place, hplace, hat⟩ := h .source node hsource
    have hlook : arc.source.bind o.node? = some place := by simp [hsource, hplace]
    rw [isReversed_of_source himage hgiven hlook]
    exact bne_eq_false_iff_eq.2 hat
  | none =>
    cases htarget : arc.target with
    | some node =>
      obtain ⟨place, hplace, hat⟩ := h .target node htarget
      have hlook : arc.target.bind o.node? = some place := by simp [htarget, hplace]
      rw [isReversed_of_target himage hgiven (by simp [hsource]) hlook]
      exact bne_eq_false_iff_eq.2 hat
    | none => exact isReversed_of_dangling himage hgiven (by simp [hsource]) (by simp [htarget])

/-- If an arc lies against its image and this is not seen, it is because the end
that is looked at is in place: the image is a loop. -/
theorem along_of_against (h : Against o arc given) (hnot : isReversed host o key arc = false) :
    Along o arc given := by
  intro e node hend
  cases hsource : arc.source with
  | some first =>
    obtain ⟨place, hplace, hat⟩ := h .source first hsource
    have hlook : arc.source.bind o.node? = some place := by simp [hsource, hplace]
    rw [isReversed_of_source himage hgiven hlook] at hnot
    have hloop : given.source = some place := bne_eq_false_iff_eq.1 hnot
    cases e with
    | source =>
      cases hsource.symm.trans hend
      exact ⟨place, hplace, hloop⟩
    | target =>
      obtain ⟨place', hplace', hat'⟩ := h .target node hend
      cases hloop.symm.trans hat'
      exact ⟨place, hplace', hat⟩
  | none =>
    cases e with
    | source => exact nomatch hsource.symm.trans hend
    | target =>
      obtain ⟨place, hplace, -⟩ := h .target node hend
      have htarget : arc.target = some node := hend
      have hlook : arc.target.bind o.node? = some place := by simp [htarget, hplace]
      rw [isReversed_of_target himage hgiven (by simp [hsource]) hlook] at hnot
      exact ⟨place, hplace, bne_eq_false_iff_eq.1 hnot⟩

/-- **The applier finds a way in which the image lies.** -/
theorem exists_atEnd_of_isReversed (hlies : Along o arc given ∨ Against o arc given) :
    if isReversed host o key arc = true then Against o arc given else Along o arc given := by
  rcases hlies with halong | hagainst
  · rw [isReversed_of_along himage hgiven halong, if_neg Bool.false_ne_true]
    exact halong
  · split
    · exact hagainst
    · rename_i hnot
      exact along_of_against himage hgiven hagainst (Bool.eq_false_iff.2 hnot)

end

/-- **The ends of the image are at the images of the nodes**, on the other side if
the arc counts as met back to front. -/
theorem atEnd_image_of_suits {key image : ArcKey} {arc given : Arc}
    (harc : rule.l.arc? key = some arc) (himage : o.arc? key = some image)
    (hgiven : host.arc? image = some given)
    (hsuits : rule.ArcSuits o.toAssignment key arc given) (e : ArcEnd) (node : NodeKey)
    (hend : arc.atEnd e = some node) : ∃ place, o.node? node = some place ∧
      given.atEnd (if (reversedArcs host rule o).contains key then e.opposite else e)
        = some place := by
  have hlies := exists_atEnd_of_isReversed himage hgiven (along_or_against_of_suits hsuits)
  rw [← contains_reversedArcs harc] at hlies
  split at hlies
  · rw [if_pos ‹_›]
    exact hlies e node hend
  · rw [if_neg ‹_›]
    exact hlies e node hend

/-! ## Where the ends are brought

An end of R is written at the end of the image that corresponds to it, which is the opposite one
if the arc was met back to front. Ends that L and R name alike are not written. -/

/-- Moving the attributes along does not move the ends. -/
theorem atEnd_moveAlong (arc before after : Arc) (e : ArcEnd) :
    (arc.moveAlong before after).atEnd e = arc.atEnd e := by
  unfold Arc.moveAlong
  dsimp only
  split <;> cases e <;> rfl

/-- The sides of an arc are exchanged one for the other. -/
theorem side_eq_iff {turn : Bool} {e f : ArcEnd} :
    (if turn then e.opposite else e) = (if turn then f.opposite else f) ↔ e = f := by
  cases turn <;> cases e <;> cases f <;> simp [ArcEnd.opposite]

/-- **One end is reconnected**, at its side of the image, and the other is left alone. -/
theorem atEnd_reconnectedArc {place : NodeKey → Option NodeKey} (before after : Arc) (turn : Bool)
    (arc : Arc) (e f : ArcEnd) :
    (reconnectedArc rule place before after turn arc e).atEnd (if turn then f.opposite else f) =
      if e = f ∧ rule.l.nodeName? (before.atEnd e) ≠ rule.r.nodeName? (after.atEnd e) then
        (after.atEnd f).bind place
      else arc.atEnd (if turn then f.opposite else f) := by
  unfold reconnectedArc
  by_cases hname : rule.l.nodeName? (before.atEnd e) = rule.r.nodeName? (after.atEnd e)
  · rw [if_pos hname]
    exact (if_neg fun h => h.2 hname).symm
  · rw [if_neg hname, Arc.atEnd_withEnd]
    by_cases hend : e = f
    · subst hend
      rw [if_pos rfl, if_pos ⟨rfl, hname⟩]
    · refine (if_neg fun h => hend (side_eq_iff.1 h).symm).trans ?_
      exact (if_neg fun h => hend h.1).symm

/-- **Where the ends of an arc are brought.** An end that L and R name alike stays
where it was, and any other goes to the place of its node of R. The sides of the
image are exchanged if the arc was met back to front, unless the image was turned
around because R orients it. -/
theorem atEnd_broughtArc {place : NodeKey → Option NodeKey} (before after : Arc)
    (backToFront : Bool) (arc : Arc) (e : ArcEnd) :
    (broughtArc rule place before after backToFront arc).atEnd
        (if backToFront && !after.isOriented then e.opposite else e) =
      if rule.l.nodeName? (before.atEnd e) = rule.r.nodeName? (after.atEnd e) then
        arc.atEnd (if backToFront then e.opposite else e)
      else (after.atEnd e).bind place := by
  have haligned : ∀ e : ArcEnd, (if backToFront && after.isOriented then arc.turned else arc).atEnd
      (if backToFront && !after.isOriented then e.opposite else e)
        = arc.atEnd (if backToFront then e.opposite else e) := by
    intro e
    cases backToFront <;> cases after.isOriented <;> simp [atEnd_turned]
  have hturn : (backToFront && !(backToFront && after.isOriented))
      = (backToFront && !after.isOriented) := by
    cases backToFront <;> rfl
  unfold broughtArc
  dsimp only
  rw [atEnd_moveAlong, hturn]
  show (reconnectedArc rule place before after _ (reconnectedArc rule place before after _ _
    .source) .target).atEnd _ = _
  rw [atEnd_reconnectedArc, atEnd_reconnectedArc, haligned]
  cases e <;> simp [ite_not]

end Update

end GraphGrammar
