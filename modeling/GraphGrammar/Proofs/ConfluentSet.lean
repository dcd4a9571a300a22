import GraphGrammar.Proofs.FreeEnds
import GraphGrammar.Proofs.Persistence
import GraphGrammar.Proofs.RuleSet

/-!
# Confluent sets of options

Options of one host that are pairwise confluent can all be applied, one after
another and in any order, as long as no embedding rule asks for a direction.

What carries the induction is that each of the options that are left still fits
the host (`Applicable.after`). Replacing L by R keeps it, as two confluent
options have no image in common; and so does reattaching free ends, because it
leaves every end where it is that the check could look at. An embedding rule
that asks for a direction may turn an arc around that another option has
matched, and that option is stale then.

An embedding rule that asks for a direction may turn an arc around when it attaches it. The end
that was attached all the time is the other end then, and the check of an option that has the arc
as an image would not find it in its place. With rules that take any direction this cannot
happen, and so the condition is on the embedding rules alone.
-/

namespace GraphGrammar

open Attributed

variable {host : Graph} {rule rule' : GrammarRule} {o o' : RuleOption}

/-! ## Fitting while free ends are reattached

A reattached arc keeps the end at which it was attached, and it gains one at the free end. What
the check of another option compares are ends that were attached when it was recognized, and
these are among those that are kept. -/

/-- An option that fits still fits if dangling ends are attached. The check compares those ends
only that have a node in L. Such an end of the image is attached already, and what is attached
stays where it is. -/
theorem RuleOption.Fits.of_holdsEnds (h : o.Fits host rule) {after : Graph}
    (hnodes : after.nodes = host.nodes) (hhyperarcs : after.hyperarcs = host.hyperarcs)
    (hends : host.HoldsEnds after) : o.Fits after rule := by
  refine { h with node := ?_, arc := ?_, hyperarc := ?_ }
  · intro key hkey hpositive
    obtain ⟨image, himage, halive⟩ := h.node key hkey hpositive
    refine ⟨image, himage, ?_⟩
    unfold Graph.hasNode
    rwa [hnodes]
  · intro key arc harc hpositive
    obtain ⟨image, given, himage, hgiven, hagrees⟩ := h.arc key arc harc hpositive
    obtain ⟨held, hheld, hflag, hatEnd⟩ := hends image given hgiven
    refine ⟨image, held, himage, hheld, ?_⟩
    -- an end that is asked for is attached, and so it is where it was
    have hend : ∀ (wanted : Option NodeKey) (e : ArcEnd),
        ((wanted.bind o.node?).isNone || given.atEnd e == wanted.bind o.node?) = true →
        ((wanted.bind o.node?).isNone || held.atEnd e == wanted.bind o.node?) = true := by
      intro wanted e hgiven
      cases hnode : wanted.bind o.node? with
      | none => rfl
      | some node =>
        rw [hnode] at hgiven
        exact beq_iff_eq.2 (hatEnd e node (beq_iff_eq.1 hgiven))
    have hboth : ∀ e f : ArcEnd, o.endsAgree arc (given.atEnd e) (given.atEnd f) = true →
        o.endsAgree arc (held.atEnd e) (held.atEnd f) = true := fun e f hgiven =>
      Bool.and_eq_true_iff.2 ((Bool.and_eq_true_iff.1 hgiven).imp (hend _ _) (hend _ _))
    unfold RuleOption.arcAgrees at hagrees ⊢
    rw [Bool.or_eq_true, Bool.and_eq_true] at hagrees ⊢
    rw [hflag]
    exact hagrees.imp (hboth .source .target) (And.imp_right (hboth .target .source))
  · intro key hyperarc hhyperarc hpositive
    obtain ⟨image, given, himage, hgiven, hmembers⟩ :=
      h.hyperarc key hyperarc hhyperarc hpositive
    refine ⟨image, given, himage, ?_, hmembers⟩
    unfold Graph.hyperarc?
    rwa [hhyperarcs]

namespace Replaced

variable {d : Derivation}

/-- Free ends are dangling once L has been replaced by R. -/
theorem atEnd_of_free (h : Replaced host rule o d) (hhost : host.WellFormed) :
    ∀ f ∈ (Deletion.deleteAll rule o { host }).2, ∀ arc, d.host.arc? f.arc = some arc →
      arc.atEnd f.freed = none := by
  intro f hf arc harc
  obtain ⟨hmatched, hlt⟩ := free_deleteAll (d := { host }) hhost f hf
  obtain ⟨given, node, hgiven, hend, hgone⟩ := Deletion.exists_of_free_deleteAll hhost f hf
  have hwithout := h.arc?_of_notMem hlt hmatched
  rw [harc, hgiven] at hwithout
  cases hwithout
  rw [Arc.atEnd_without, hend]
  simp [hgone]

end Replaced

/-! ## One application after another

`Applicable` is the invariant. It does not say that the option was recognized in the host at
hand, which need not be the case any more: it says that the option fits, and that its application
will leave attached ends alone. -/

/-- **An option that can be applied** and whose application leaves every end
alone that is attached. -/
structure Applicable (host : Graph) (rule : GrammarRule) (o : RuleOption) : Prop where
  coherent : rule.Coherent
  undirected : ∀ e ∈ rule.embeddingRules, e.newDirection = .any
  distinct : o.toAssignment.Distinct
  fits : o.Fits host rule

namespace Applicable

/-- What is recognized can be applied, if no embedding rule asks for a direction. -/
theorem of_offers (hhost : host.WellFormed) (hrule : rule.Built)
    (hundirected : ∀ e ∈ rule.embeddingRules, e.newDirection = .any)
    (hoffers : rule.Offers host o) : Applicable host rule o := by
  have hmatch := (hoffers.matches hhost hrule.coherent).1
  exact ⟨hrule.coherent, hundirected, hmatch.occurs.distinct,
    RuleOption.fits_of_occurs hmatch.occurs⟩

variable (hhost : host.WellFormed) (h : Applicable host rule o)

include hhost h

/-- An applicable option is applied, and the host it leaves is well formed. -/
theorem applies : (∃ report, (apply host rule o).result = .ok report) ∧
    (apply host rule o).host.WellFormed := by
  obtain ⟨d, done, images, happly, -, -, hreattaches⟩ :=
    apply_eq_of_fits hhost h.coherent h.distinct h.fits
  rw [happly]
  exact ⟨⟨done.report, rfl⟩, hreattaches.wellFormed⟩

/-- **An option can still be applied after a confluent one.** Confluent options have no image in
common, so the images of the one are as they were, save for ends that were dangling. -/
theorem after (h' : Applicable host rule' o') (hconfluent : areConfluent o o' = true) :
    Applicable (apply host rule o).host rule' o' := by
  obtain ⟨d, done, images, happly, hreplaced, hdone, hreattaches⟩ :=
    apply_eq_of_fits hhost h.coherent h.distinct h.fits
  rw [happly]
  refine { h' with fits := ?_ }
  have hreplacedFits : o'.Fits d.host rule' :=
    hreplaced.fits_after h'.coherent h'.fits hconfluent
  exact hreplacedFits.of_holdsEnds hreattaches.nodes hreattaches.hyperarcs
    (Reattachment.reattachAll_holdsEnds h.undirected (hreplaced.atEnd_of_free hhost) hdone)

end Applicable

/-- The applications of options one after another, each to the host that the
one before it left. -/
def applyEach (host : Graph) : List (GrammarRule × RuleOption) → List Application
  | [] => []
  | (rule, o) :: rest => apply host rule o :: applyEach (apply host rule o).host rest

/-- Options that can be applied and are pairwise confluent can be applied one
after another. -/
theorem applyEach_applies :
    ∀ {steps : List (GrammarRule × RuleOption)} {host : Graph}, host.WellFormed →
      (∀ step ∈ steps, Applicable host step.1 step.2) →
      steps.Pairwise (fun a b => areConfluent a.2 b.2 = true) →
      ∀ application ∈ applyEach host steps,
        (∃ report, application.result = .ok report) ∧ application.host.WellFormed
  | [], _, _, _, _ => fun _ h => nomatch h
  | (rule, o) :: rest, host, hhost, happlicable, hconfluent => by
    have hfirst := happlicable (rule, o) List.mem_cons_self
    obtain ⟨hothers, hrest⟩ := List.pairwise_cons.1 hconfluent
    have happlies := hfirst.applies hhost
    intro application hmem
    rcases List.mem_cons.1 hmem with rfl | hmem
    · exact happlies
    · refine applyEach_applies happlies.2 (fun step hstep => ?_) hrest application hmem
      exact hfirst.after hhost (happlicable step (List.mem_cons_of_mem _ hstep))
        (hothers step hstep)

/-- **A confluent set can be applied as a whole, in any order.** Options that
were recognized in one host, for rules that were built and without an embedding
rule that asks for a direction, and that are pairwise confluent: applied one
after another, in whatever order, each of them is applied, and the host is well
formed after each. -/
theorem confluent_set_applies {chosen : List (GrammarRule × RuleOption)}
    (hhost : host.WellFormed) (hbuilt : ∀ step ∈ chosen, step.1.Built)
    (hundirected : ∀ step ∈ chosen, ∀ e ∈ step.1.embeddingRules, e.newDirection = .any)
    (hoffers : ∀ step ∈ chosen, step.1.Offers host step.2)
    (hconfluent : chosen.Pairwise fun a b => areConfluent a.2 b.2 = true) :
    ∀ order : List (GrammarRule × RuleOption), order.Perm chosen →
      ∀ application ∈ applyEach host order,
        (∃ report, application.result = .ok report) ∧ application.host.WellFormed := by
  intro order horder
  refine applyEach_applies hhost (fun step hstep => ?_)
    (hconfluent.perm horder.symm fun h => areConfluent_symm h)
  have hmem := horder.mem_iff.1 hstep
  exact .of_offers hhost (hbuilt step hmem) (hundirected step hmem) (hoffers step hmem)

/-- The rule that puts a new node in the place of a node and attaches the arcs
to it, in some direction. -/
def GrammarRule.replaceNode (newDirection : ArcDirection) : GrammarRule where
  name := "replace node"
  l := { nodes := .ofElements [{ name := "a" }] }
  k := .empty
  r := { nodes := .ofElements [{ name := "c" }] }
  nodeConditions := [{}]
  arcConditions := []
  hyperarcConditions := []
  contextNodes := .empty
  contextArcs := .empty
  contextHyperArcs := .empty
  embeddingRules := [{ rNode := "c", newDirection }]

/-- The rule that removes an arc from the node it points at. -/
def GrammarRule.cutArc : GrammarRule where
  name := "cut arc"
  l := { nodes := .ofElements [{ name := "b" }]
         arcs := .ofElements [{ name := "e", target := some ⟨0⟩, directed := true }] }
  k := { nodes := .ofElements [{ name := "b" }] }
  r := { nodes := .ofElements [{ name := "b" }] }
  nodeConditions := [{}]
  arcConditions := [{}]
  hyperarcConditions := []
  contextNodes := Correspondence.empty.insert ⟨0⟩ ⟨0⟩
  contextArcs := .empty
  contextHyperArcs := .empty

/-- The rule passes every check of a draft, whatever direction its embedding rule asks for. -/
theorem GrammarRule.replaceNode_built (newDirection : ArcDirection) :
    (GrammarRule.replaceNode newDirection).Built :=
  ⟨{ name := "replace node"
     l := (replaceNode newDirection).l
     r := (replaceNode newDirection).r
     embeddingRules := (replaceNode newDirection).embeddingRules },
    ⟨Graph.membersDistinct_of_no_hyperarcs rfl, Graph.membersDistinct_of_no_hyperarcs rfl, nofun⟩,
    rfl⟩

/-- The rule passes every check of a draft. -/
theorem GrammarRule.cutArc_built : GrammarRule.cutArc.Built :=
  ⟨{ name := "cut arc", l := cutArc.l, r := cutArc.r },
    ⟨Graph.membersDistinct_of_no_hyperarcs rfl, Graph.membersDistinct_of_no_hyperarcs rfl, nofun⟩,
    rfl⟩

/-- The first node of an edge is replaced and the edge is cut at the second, or
the other way round. -/
theorem confluent_set_applies_edge :
    ∃ o o', o ∈ (recognize (.edge true) (.replaceNode .any) {}).options ∧
      o' ∈ (recognize (.edge true) .cutArc {}).options ∧
      o.toAssignment = ⟨[some ⟨0⟩], [], []⟩ ∧ o'.toAssignment = ⟨[some ⟨1⟩], [some ⟨0⟩], []⟩ ∧
      ∀ order : List (GrammarRule × RuleOption),
        order.Perm [(.replaceNode .any, o), (.cutArc, o')] →
        ∀ application ∈ applyEach (.edge true) order,
          (∃ report, application.result = .ok report) ∧ application.host.WellFormed := by
  have hlength : 0 < (recognize (.edge true) (.replaceNode .any) {}).options.length := by
    decide +kernel
  have hlength' : 0 < (recognize (.edge true) .cutArc {}).options.length := by decide +kernel
  have hmem := List.getElem_mem hlength
  have hmem' := List.getElem_mem hlength'
  refine ⟨_, _, hmem, hmem', rfl, rfl, ?_⟩
  apply confluent_set_applies (Graph.edge_wellFormed true)
  · simp [GrammarRule.replaceNode_built, GrammarRule.cutArc_built]
  · simp [GrammarRule.replaceNode, GrammarRule.cutArc]
  · simp [GrammarRule.offers_of_mem_options hmem, GrammarRule.offers_of_mem_options hmem']
  · exact List.pairwise_pair.2 rfl

/-- Where the arc is turned around on the way, it cannot be cut any more. -/
example :
    (applyEach (.edge true) [(.replaceNode .into, { nodes := [some ⟨0⟩] }),
        (.cutArc, { nodes := [some ⟨1⟩], arcs := [some ⟨0⟩] })]).map (·.result.toOption.isSome)
      = [true, false] := by decide +kernel

end GraphGrammar
