import GraphGrammar.Proofs.Exchange
import GraphGrammar.Proofs.Persistence

/-!
# Confluent options commute

Two options are confluent if they have no image in common. That is all that is
looked at, and it is enough: such options can be applied in either order, and
both orders lead to the same host, up to the keys and names of what is added
(`confluent_options_commute`).

The second option outlives the first application, and its effect is the one it
would have had in the host as it was, with other places for the nodes that are
added. So the two orders differ by an exchange of the keys that were given, and
`Effect.sameUpTo` is used for nodes, arcs and hyperarcs.

Global labels and variables are not consumed by an option. Rules that change
them would have to be looked at in another way, and are left out here.

What is deliberately not claimed is that the graphs are equal. The first application takes the
next free keys, whatever it adds, so the element that is added first under the one order is added
second under the other.
-/

namespace GraphGrammar

open Attributed Connected

variable {host after after' : Graph} {rule rule' : GrammarRule} {o o' : RuleOption}

/-! ## The effects of a rule are local

An effect is local if it can be told from the footprint of the application: which nodes it has
images in, which of them it removes and where the nodes of R are. This is shown for each kind,
and from there on the rule itself plays no part. -/

namespace GrammarRule

/-- What applying a rule has to do with nodes, before and after another application. Its images
are the nodes that the option has for images, and the nodes that go are among them. -/
def footprint (rule : GrammarRule) (o : RuleOption) (host after : Graph) : Footprint where
  images := o.nodeImages
  gone := rule.goneNodes o.toAssignment
  place := rule.placeAt host o.toAssignment
  later := rule.placeAt after o.toAssignment

/-- What applying a rule does to nodes. -/
def nodeEffect (rule : GrammarRule) (o : RuleOption) : Effect .node Node where
  images := o.nodeImages
  fate _ := rule.nodeFate o
  added _ := rule.freshNodes.map fun entry => Addition.placedNode o entry.2

/-- What applying a rule does to arcs. -/
def arcEffect (rule : GrammarRule) (o : RuleOption) (reversed : List ArcKey) :
    Effect .arc Arc where
  images := o.arcImages
  fate place := rule.arcFate o place reversed
  added place := rule.freshArcs.map fun entry => entry.2.mapEnds place

/-- What applying a rule does to hyperarcs. -/
def hyperarcEffect (rule : GrammarRule) (o : RuleOption) : Effect .hyperarc HyperArc where
  images := o.hyperarcImages
  fate place := rule.hyperarcFate o place
  added place := rule.freshHyperArcs.map fun entry => entry.2.mapMembers place

/-- As many nodes are added as R has outside the context, in whatever host. -/
theorem length_added_nodeEffect (place : NodeKey → Option NodeKey) :
    ((rule.nodeEffect o).added place).length = rule.freshNodes.length :=
  List.length_map _

/-- What happens to nodes depends on the footprint. -/
theorem nodeEffect_local (rule : GrammarRule) (o : RuleOption) (host after : Graph) :
    (rule.nodeEffect o).Local (rule.footprint o host after) where
  other _ _ node hkey := nodeFate_other hkey node
  map_fate _ _ key node := by
    show (rule.nodeFate o key node).map id = _
    rw [Option.map_id_apply]
    rfl
  map_added _ _ := List.map_id _

/-- What happens to arcs depends on the footprint and on which of them are met back to front. -/
theorem arcEffect_local (rule : GrammarRule) (o : RuleOption) (reversed : List ArcKey)
    (host after : Graph) : (rule.arcEffect o reversed).Local (rule.footprint o host after) where
  other _ _ arc hkey := (arcFate_other hkey arc).trans (congrArg some (Arc.without_eq _ arc))
  map_fate hf _ key arc := mapEnds_arcFate hf key arc
  map_added f place := by
    show List.map (fun arc : Arc => arc.mapEnds f) (rule.freshArcs.map _) = rule.freshArcs.map _
    rw [List.map_map]
    exact List.map_congr_left fun entry _ => Arc.mapEnds_mapEnds place f entry.2

/-- What happens to hyperarcs depends on the footprint. -/
theorem hyperarcEffect_local (rule : GrammarRule) (o : RuleOption) (host after : Graph) :
    (rule.hyperarcEffect o).Local (rule.footprint o host after) where
  other _ _ hyperarc hkey :=
    (hyperarcFate_other hkey hyperarc).trans (congrArg some (HyperArc.without_eq _ hyperarc))
  map_fate hf _ key hyperarc := mapMembers_hyperarcFate hf key hyperarc
  map_added f place := by
    show List.map (fun hyperarc : HyperArc => hyperarc.mapMembers f) (rule.freshHyperArcs.map _)
      = rule.freshHyperArcs.map _
    rw [List.map_map]
    exact List.map_congr_left fun entry _ => HyperArc.mapMembers_mapMembers place f entry.2

end GrammarRule

/-! ## Places after another application

The other application has put its own nodes where this one would have. `Key.exchange` is the
renumbering that makes up for it, and on the images of either option it does nothing. -/

/-- Renumbering the keys that were given renumbers the places. An image is not renumbered, as it
was there before any key was given. -/
theorem Correspondence.map_placeIn {κ : Kind} {c : Correspondence (Key κ) (Key κ)}
    {image? : Key κ → Option (Key κ)} {keys added : List (Key κ)} {σ : Key κ → Key κ}
    (h : ∀ lKey image, image? lKey = some image → σ image = image) (key : Key κ) :
    c.placeIn image? keys (added.map σ) key = (c.placeIn image? keys added key).map σ := by
  have hlookup : ∀ fresh : List (Key κ), (fresh.zip (added.map σ)).lookup key
      = ((fresh.zip added).lookup key).map σ := by
    intro fresh
    induction fresh generalizing added with
    | nil => rfl
    | cons first rest ih =>
      cases added with
      | nil => rfl
      | cons next others =>
        rw [List.map_cons, List.zip_cons_cons, List.zip_cons_cons, List.lookup_cons,
          List.lookup_cons]
        split
        · rfl
        · exact ih
  unfold placeIn
  cases c.left? key with
  | none => exact hlookup _
  | some lKey =>
    show image? lKey = (image? lKey).map σ
    cases himage : image? lKey with
    | none => rfl
    | some image => exact congrArg some (h lKey image himage).symm

/-- The keys that are next once others have been given are the next keys, exchanged with those.
-/
theorem Registry.map_exchange_nextKeys {κ : Kind} {α : Type} {r s : Registry κ α} {a b : Nat}
    (hlength : s.cells.length = r.cells.length + b) :
    (r.nextKeys a).map (Key.exchange r.cells.length a b) = s.nextKeys a := by
  refine List.ext_getElem? fun i => ?_
  rw [List.getElem?_map]
  rcases Nat.lt_or_ge i a with hlt | hge
  · rw [getElem?_nextKeys _ hlt, getElem?_nextKeys _ hlt, Option.map_some, Key.exchange_first hlt,
      hlength]
  · rw [List.getElem?_eq_none (by rwa [length_nextKeys]),
      List.getElem?_eq_none (by rwa [length_nextKeys])]
    rfl

/-- **Applications of confluent options are apart.** Here the condition that the two options have
no image in common is used, and nowhere after this. -/
theorem GrammarRule.footprint_apart (hrule : rule.Coherent) (hrule' : rule'.Coherent)
    (hfits : o.Fits host rule) (hfits' : o'.Fits host rule') (h : areConfluent o o' = true)
    (hlength : after.nodes.cells.length = host.nodes.cells.length + rule'.freshNodes.length) :
    (rule.footprint o host after).Apart
      (Key.exchange host.nodes.cells.length rule.freshNodes.length rule'.freshNodes.length)
      (rule'.footprint o' host after') where
  gone_subset := rule.goneNodes_subset _
  disjoint node hnode hgone :=
    (Assignment.disjoint_iff.1 h).1 node hnode (rule'.goneNodes_subset _ hgone)
  kept m node hm hgone := by
    have himage := rule'.goneNodes_subset _ hgone
    rcases placeAt_eq_some.1 hm with ⟨lKey, -, hlKey⟩ | ⟨-, i, -, hi⟩
    · exact (Assignment.disjoint_iff.1 h).1 node (Assignment.mem_nodeImages.2 ⟨lKey, hlKey⟩) himage
    · exact Registry.notMem_nextKeys (hfits'.nodeImages_lt hrule' himage) _
        (List.mem_of_getElem? hi)
  fixes node hnode := Key.exchange_of_lt (hfits.nodeImages_lt hrule hnode)
  later m := by
    show rule.place _ (after.nodes.nextKeys _) m = _
    rw [← Registry.map_exchange_nextKeys hlength]
    exact Correspondence.map_placeIn (fun lKey image himage => Key.exchange_of_lt
      (hfits.nodeImages_lt hrule (Assignment.mem_nodeImages.2 ⟨lKey, himage⟩))) m

/-! ## Labels and variables of the whole graph

The rules of the theorem leave global labels and variables as they are. An application writes the
labels back all the same, and if a label is listed twice in the host the copy of it is lost on
that way. -/

/-- There is nothing to move if L and R have the same labels. -/
theorem LabelSet.moveAlong_self (s run : LabelSet) : s.moveAlong run run = s := by
  have hnone : run.toList.filter (!run.contains ·) = [] := by
    simp [List.filter_eq_nil_iff, contains]
  unfold moveAlong
  rw [hnone]
  rfl

/-- Replacing a run of labels where it was found by itself drops repeats and no more. -/
theorem LabelSet.replaceRun_self {s run : LabelSet} {start : Nat}
    (hstart : start ∈ runStarts run.toList s.toList) :
    s.replaceRun run run start = ofList s.toList := by
  obtain ⟨hlt, hprefix⟩ := mem_runStarts_iff.1 hstart
  have hlist : s.toList.take start ++ run.toList ++ s.toList.drop (start + run.size)
      = s.toList := by
    rw [← List.drop_drop, List.append_assoc]
    show _ ++ (run.toList ++ (s.toList.drop start).drop run.toList.length) = _
    rw [List.prefix_iff_eq_append.1 hprefix, List.take_append_drop]
  unfold replaceRun
  rw [if_pos (show start ≤ s.size from Nat.le_of_lt hlt), hlist]

namespace Update

/-- The global labels that an application leaves. It depends on the labels of the host only,
which is why any graph with these labels will do in the definition. -/
def labelsAfter (rule : GrammarRule) (o : RuleOption) (labels : LabelSet) : LabelSet :=
  (updateGlobals rule o { globalLabels := labels }).globalLabels

variable (hlabels : rule.l.globalLabels = rule.r.globalLabels)

include hlabels

/-- Global labels that are the same in L and R stay. If they were a run of those of the host,
repeats are dropped. -/
theorem labelsAfter_eq {labels : LabelSet}
    (hstart : o.globalLabelStart ∈ globalLabelStarts rule labels) :
    labelsAfter rule o labels =
      if rule.orderedGlobalLabels && o.globalLabelStart.isSome then .ofList labels.toList
      else labels := by
  unfold labelsAfter updateGlobals
  cases ho : o.globalLabelStart with
  | none => simp [hlabels, LabelSet.moveAlong_self]
  | some start =>
    rw [ho] at hstart
    have hrun := LabelSet.replaceRun_self (mem_runStarts_of_mem_globalLabelStarts hstart)
    cases rule.orderedGlobalLabels with
    | true => simpa [← hlabels] using hrun
    | false => simp [hlabels, LabelSet.moveAlong_self]

/-- Without a place for the global labels of L they are moved along, so here they stay. -/
theorem labelsAfter_of_none (hstart : o.globalLabelStart = none) (labels : LabelSet) :
    labelsAfter rule o labels = labels := by
  unfold labelsAfter updateGlobals
  simp [hstart, hlabels, LabelSet.moveAlong_self]

/-- **In a host that lists no global label twice they stay**, at whatever place the run of L
begins. -/
theorem labelsAfter_of_distinct {labels : LabelSet}
    (hstart : o.globalLabelStart ∈ globalLabelStarts rule labels) (h : labels.Distinct) :
    labelsAfter rule o labels = labels := by
  rw [labelsAfter_eq hlabels hstart, LabelSet.ofList_eq_self h]
  exact ite_self _

end Update

/-! ## The theorem

Both orders are described by `Replaced`, since a rule without embedding rules does nothing beyond
it. The two descriptions are compared kind by kind. -/

/-- **Two graphs that came from one host are the same up to the keys and names of what was
added.** What was there has the same keys, and the added elements of one graph are those of the
other, renumbered. Global labels are not spoken of, as a theorem about them has a condition of
its own. -/
structure Graph.SameUpTo (host g h : Graph) : Prop where
  name : h.name = g.name
  values : h.globalVariables = g.globalVariables
  elements : ∃ (σ : Equiv.Perm NodeKey) (τ : Equiv.Perm ArcKey) (υ : Equiv.Perm HyperArcKey),
    Registry.SameUpTo host.nodes.cells.length σ id g.nodes h.nodes ∧
    Registry.SameUpTo host.arcs.cells.length τ (renumber σ) g.arcs h.arcs ∧
    Registry.SameUpTo host.hyperarcs.cells.length υ (renumber σ) g.hyperarcs h.hyperarcs

/-- A rule without embedding rules does nothing beyond replacing L by R. -/
theorem apply_of_fits_unembedded (hhost : host.WellFormed) (hrule : rule.Coherent)
    (hdistinct : o.toAssignment.Distinct) (hfits : o.Fits host rule)
    (hno : rule.embeddingRules = []) :
    ∃ d report, apply host rule o = ⟨d.host, .ok report⟩ ∧ Replaced host rule o d := by
  obtain ⟨d, done, _, happly, happlied⟩ := apply_of_fits hhost hrule hdistinct hfits
  rw [happlied.unembedded hno] at happly
  exact ⟨d, done.report, happly, happlied.replaced⟩

/-- **What two applications do does not depend on their order.** This is the heart of
`confluent_options_commute`. It speaks of the descriptions of four applications, two for either
order, and no longer of the applications. -/
theorem Replaced.sameUpTo (hhost : host.WellFormed) (hrule : rule.Coherent)
    (hrule' : rule'.Coherent) (hfits : o.Fits host rule) (hfits' : o'.Fits host rule')
    (h : areConfluent o o' = true)
    (hvalues : (rule.l.globalVariables == rule.r.globalVariables) = true)
    (hvalues' : (rule'.l.globalVariables == rule'.r.globalVariables) = true)
    {first second first' second' : Derivation}
    (hfirst : Replaced host rule o first) (hsecond : Replaced first.host rule' o' second)
    (hfirst' : Replaced host rule' o' first') (hsecond' : Replaced first'.host rule o second') :
    host.SameUpTo second.host second'.host := by
  obtain ⟨hnodes, harcs, hhyperarcs⟩ := Assignment.disjoint_iff.1 h
  have hlength : first'.host.nodes.cells.length
      = host.nodes.cells.length + rule'.freshNodes.length := by
    rw [hfirst'.nodes.length, List.length_map]
  have hlength' : first.host.nodes.cells.length
      = host.nodes.cells.length + rule.freshNodes.length := by
    rw [hfirst.nodes.length, List.length_map]
  let σ : Equiv.Perm NodeKey :=
    Key.exchange host.nodes.cells.length rule.freshNodes.length rule'.freshNodes.length
  have hapart : (rule.footprint o host first'.host).Apart σ
      (rule'.footprint o' host first.host) :=
    GrammarRule.footprint_apart hrule hrule' hfits hfits' h hlength
  have hapart' : (rule'.footprint o' host first.host).Apart σ.symm
      (rule.footprint o host first'.host) :=
    GrammarRule.footprint_apart hrule' hrule hfits' hfits (areConfluent_symm h) hlength'
  have hfixed : ∀ node, host.hasNode node = true → σ node = node := fun node hnode =>
    Key.exchange_of_lt (Registry.lt_of_contains hnode)
  -- an arc that is reversed in the host is still so after the first application
  have harcs₂ := hsecond.arcs
  rw [hfirst.reversedArcs_after hrule' hfits' h] at harcs₂
  have harcs₂' := hsecond'.arcs
  rw [hfirst'.reversedArcs_after hrule hfits (areConfluent_symm h)] at harcs₂'
  -- globals that are the same in L and R change nothing
  have hidle (g : Graph) : (Update.updateGlobals rule o g).globalVariables = g.globalVariables :=
    if_pos hvalues
  have hidle' (g : Graph) : (Update.updateGlobals rule' o' g).globalVariables = g.globalVariables :=
    if_pos hvalues'
  have hsameNodes := Effect.sameUpTo (rule.nodeEffect_local o host first'.host)
    (rule'.nodeEffect_local o' host first.host) hapart hapart' hnodes
    (fun image => hfits.nodeImages_lt hrule) (fun image => hfits'.nodeImages_lt hrule')
    (fun _ _ _ _ hnode => nomatch hnode)
    hfirst.nodes hsecond.nodes hfirst'.nodes hsecond'.nodes
  rw [GrammarRule.length_added_nodeEffect, GrammarRule.length_added_nodeEffect] at hsameNodes
  have hsameArcs := Effect.sameUpTo (rule.arcEffect_local o _ host first'.host)
    (rule'.arcEffect_local o' _ host first.host) hapart hapart' harcs
    (fun image => hfits.arcImages_lt hrule) (fun image => hfits'.arcImages_lt hrule')
    (fun key arc harc node hnode => hfixed node (hhost.ends_alive key arc harc node hnode))
    hfirst.arcs harcs₂ hfirst'.arcs harcs₂'
  have hsameHyperArcs := Effect.sameUpTo (rule.hyperarcEffect_local o host first'.host)
    (rule'.hyperarcEffect_local o' host first.host) hapart hapart' hhyperarcs
    (fun image => hfits.hyperarcImages_lt hrule) (fun image => hfits'.hyperarcImages_lt hrule')
    (fun key hyperarc hh node hnode =>
      hfixed node (hhost.members_alive key hyperarc hh node hnode))
    hfirst.hyperarcs hsecond.hyperarcs hfirst'.hyperarcs hsecond'.hyperarcs
  refine ⟨?_, ?_, σ, _, _, hsameNodes, hsameArcs, hsameHyperArcs⟩
  · exact hsecond'.globals.name.trans (hfirst'.globals.name.trans
      (hsecond.globals.name.trans hfirst.globals.name).symm)
  · rw [hsecond'.globals.values, hsecond.globals.values, hidle, hidle', hfirst'.globals.values,
      hfirst.globals.values, hidle, hidle']

/-- Global labels that are the same in L and R are where they were, unless both
options replace a run of them in a host that repeats a label. -/
theorem Replaced.globalLabels_eq (hlabels : rule.l.globalLabels = rule.r.globalLabels)
    (hlabels' : rule'.l.globalLabels = rule'.r.globalLabels)
    (hstart : o.globalLabelStart ∈ globalLabelStarts rule host.globalLabels)
    (hstart' : o'.globalLabelStart ∈ globalLabelStarts rule' host.globalLabels)
    (h : o.globalLabelStart = none ∨ o'.globalLabelStart = none ∨ host.globalLabels.Distinct)
    {first second first' second' : Derivation}
    (hfirst : Replaced host rule o first) (hsecond : Replaced first.host rule' o' second)
    (hfirst' : Replaced host rule' o' first') (hsecond' : Replaced first'.host rule o second') :
    second.host.globalLabels = second'.host.globalLabels := by
  have hforth : second.host.globalLabels
      = Update.labelsAfter rule' o' (Update.labelsAfter rule o host.globalLabels) :=
    hsecond.globals.labels.trans (congrArg (Update.labelsAfter rule' o') hfirst.globals.labels)
  have hback : second'.host.globalLabels
      = Update.labelsAfter rule o (Update.labelsAfter rule' o' host.globalLabels) :=
    hsecond'.globals.labels.trans (congrArg (Update.labelsAfter rule o) hfirst'.globals.labels)
  rw [hforth, hback]
  rcases h with hnone | hnone | hdistinct
  · rw [Update.labelsAfter_of_none hlabels hnone, Update.labelsAfter_of_none hlabels hnone]
  · rw [Update.labelsAfter_of_none hlabels' hnone, Update.labelsAfter_of_none hlabels' hnone]
  · rw [Update.labelsAfter_of_distinct hlabels hstart hdistinct,
      Update.labelsAfter_of_distinct hlabels' hstart' hdistinct,
      Update.labelsAfter_of_distinct hlabels hstart hdistinct]

/-- **Confluent options commute.** For rules that were built, have no embedding
rules and do not change global labels and variables, and for options of them that
are recognized in a well-formed host and are confluent, applying one after the
other succeeds in either order, and the two orders lead to the same host up to the
keys and names of what is added. The global labels are the same as well, unless
both rules look at their order and the host repeats one, which a set of labels
does not. -/
theorem confluent_options_commute (hhost : host.WellFormed) (hrule : rule.Built)
    (hrule' : rule'.Built) (hno : rule.embeddingRules = []) (hno' : rule'.embeddingRules = [])
    (hlabels : rule.l.globalLabels = rule.r.globalLabels)
    (hlabels' : rule'.l.globalLabels = rule'.r.globalLabels)
    (hvalues : (rule.l.globalVariables == rule.r.globalVariables) = true)
    (hvalues' : (rule'.l.globalVariables == rule'.r.globalVariables) = true)
    {limits limits' : Limits} (ho : o ∈ (recognize host rule limits).options)
    (ho' : o' ∈ (recognize host rule' limits').options) (h : areConfluent o o' = true) :
    let first := apply host rule o
    let second := apply first.host rule' o'
    let first' := apply host rule' o'
    let second' := apply first'.host rule o
    (∃ report, first.result = .ok report) ∧ (∃ report, second.result = .ok report) ∧
      (∃ report, first'.result = .ok report) ∧ (∃ report, second'.result = .ok report) ∧
      host.SameUpTo second.host second'.host ∧
      (o.globalLabelStart = none ∨ o'.globalLabelStart = none ∨ host.globalLabels.Distinct →
        second.host.globalLabels = second'.host.globalLabels) := by
  have hsymm := areConfluent_symm h
  obtain ⟨hmatch, hstart⟩ := matches_of_mem_options hhost hrule.coherent ho
  obtain ⟨hmatch', hstart'⟩ := matches_of_mem_options hhost hrule'.coherent ho'
  have hdistinct := hmatch.occurs.distinct
  have hdistinct' := hmatch'.occurs.distinct
  have hfits := RuleOption.fits_of_occurs hmatch.occurs
  have hfits' := RuleOption.fits_of_occurs hmatch'.occurs
  -- the first applications, and then the second ones in the hosts they leave
  obtain ⟨d, report, hfirst, hd⟩ :=
    apply_of_fits_unembedded hhost hrule.coherent hdistinct hfits hno
  obtain ⟨d', report', hfirst', hd'⟩ :=
    apply_of_fits_unembedded hhost hrule'.coherent hdistinct' hfits' hno'
  obtain ⟨e, reportE, hsecond, he⟩ := apply_of_fits_unembedded hd.wellFormed hrule'.coherent
    hdistinct' (hd.fits_after hrule'.coherent hfits' h) hno'
  obtain ⟨e', reportE', hsecond', he'⟩ := apply_of_fits_unembedded hd'.wellFormed hrule.coherent
    hdistinct (hd'.fits_after hrule.coherent hfits hsymm) hno
  dsimp only
  rw [hfirst, hfirst']
  dsimp only
  rw [hsecond, hsecond']
  refine ⟨⟨report, rfl⟩, ⟨reportE, rfl⟩, ⟨report', rfl⟩, ⟨reportE', rfl⟩, ?_, fun hcase => ?_⟩
  · exact Replaced.sameUpTo hhost hrule.coherent hrule'.coherent hfits hfits' h hvalues hvalues'
      hd he hd' he'
  · exact Replaced.globalLabels_eq hlabels hlabels' hstart hstart' hcase hd he hd' he'

/-- The rule that lets a node grow an arc with a node at the other end. -/
def GrammarRule.sprout : GrammarRule where
  name := "sprout"
  l := { nodes := .ofElements [{ name := "a" }] }
  k := { nodes := .ofElements [{ name := "a" }] }
  r := .edge true
  nodeConditions := [{}]
  arcConditions := []
  hyperarcConditions := []
  contextNodes := Correspondence.empty.insert ⟨0⟩ ⟨0⟩
  contextArcs := .empty
  contextHyperArcs := .empty

/-- The rule passes every check of a draft. -/
theorem GrammarRule.sprout_built : GrammarRule.sprout.Built :=
  ⟨{ name := "sprout", l := { nodes := .ofElements [{ name := "a" }] }, r := .edge true },
    ⟨Graph.membersDistinct_of_no_hyperarcs rfl, Graph.membersDistinct_of_no_hyperarcs rfl, nofun⟩,
    rfl⟩

/-- It has an option at each end of the edge. -/
theorem length_options_sprout : (recognize (.edge true) .sprout {}).options.length = 2 := by
  decide +kernel

/-- Two nodes grow arcs in one order and in the other, and the arcs that are added
change places. -/
theorem confluent_options_commute_sprout :
    ∃ o o', o ∈ (recognize (.edge true) .sprout {}).options ∧
      o' ∈ (recognize (.edge true) .sprout {}).options ∧ areConfluent o o' = true ∧
      let second := apply (apply (.edge true) .sprout o).host .sprout o'
      let second' := apply (apply (.edge true) .sprout o').host .sprout o
      second.host.arcs.elements.map (·.source) = [some ⟨0⟩, some ⟨0⟩, some ⟨1⟩] ∧
        second'.host.arcs.elements.map (·.source) = [some ⟨0⟩, some ⟨1⟩, some ⟨0⟩] ∧
        (Graph.edge true).SameUpTo second.host second'.host ∧
        second.host.globalLabels = second'.host.globalLabels := by
  have hmem := List.getElem_mem (length_options_sprout ▸ Nat.zero_lt_two)
  have hmem' := List.getElem_mem (length_options_sprout ▸ Nat.one_lt_two)
  have hconfluent : areConfluent ((recognize (.edge true) .sprout {}).options.get
      ⟨0, length_options_sprout ▸ Nat.zero_lt_two⟩) ((recognize (.edge true) .sprout {}).options.get
      ⟨1, length_options_sprout ▸ Nat.one_lt_two⟩) = true := by decide +kernel
  obtain ⟨-, -, -, -, hsame, hlabels⟩ := confluent_options_commute (Graph.edge_wellFormed true)
    GrammarRule.sprout_built GrammarRule.sprout_built rfl rfl rfl rfl rfl rfl hmem hmem' hconfluent
  refine ⟨_, _, hmem, hmem', hconfluent, ?_, ?_, hsame, hlabels (.inl ?_)⟩
  · decide +kernel
  · decide +kernel
  · decide +kernel

end GraphGrammar
