import GraphGrammar.Proofs.Embedding

/-!
# Arcs that lose both ends

An arc that is no image and loses both ends has no neighbour. Its ends are offered one after
the other, by the order of the nodes of L that were at them, and each goes to the first
embedding rule that admits it (`apply_embeds_both`).

The ends are not independent of each other. An embedding rule that asks for a direction makes
the arc directed when it takes the end that is offered first, and the end that is offered
second is then seen as an end of a directed arc. So an embedding rule that minds the old
direction may refuse it, though it would have taken it from the arc as it was
(`second_end_refused_joinEnds`). It makes no difference where the arc was directed before, or
points both ways, or where the first end was taken without asking for a direction.

Of the graph in between nothing else matters. An embedding rule looks at the labels and the
orientation of an arc, and only the latter can have changed. So what follows for the second end
is said of the arc as it was, with the change that the first end made (`Arc.seenAfter`).
-/

namespace GraphGrammar

open Attributed

variable {host : Graph} {rule : GrammarRule} {o : RuleOption}

/-! ## Two free ends

The ends are noted in the order in which nodes of L are deleted, and at one node the source
before the target. Here the list of the two ends is computed from the rule and the option. -/

namespace Deletion

/-- Where two entries contribute to a list, it is what the first contributes and what the second
does. The entries are sorted by their keys and keys are not repeated, so the list splits into
what is before the first, between the two, and behind the second. -/
theorem flatMap_eq_of_two {κ : Kind} {α β : Type} {entries : List (Key κ × α)}
    {first second : Key κ × α}
    (hsorted : entries.Pairwise fun entry other => entry.1.index < other.1.index)
    (hfirst : first ∈ entries) (hsecond : second ∈ entries)
    (hlt : first.1.index < second.1.index) {f : Key κ × α → List β}
    (hf : ∀ entry ∈ entries, entry.1 ≠ first.1 → entry.1 ≠ second.1 → f entry = []) :
    entries.flatMap f = f first ++ f second := by
  obtain ⟨before, after, rfl⟩ := List.append_of_mem hfirst
  obtain ⟨hbefore, hafter, hlts⟩ := List.pairwise_append.1 hsorted
  obtain ⟨hfirstLt, hafter⟩ := List.pairwise_cons.1 hafter
  have hnone : before.flatMap f = [] := by
    refine List.flatMap_eq_nil_iff.2 fun entry hentry => ?_
    have hentryLt := hlts entry hentry first List.mem_cons_self
    exact hf entry (List.mem_append_left _ hentry) (fun heq => by rw [heq] at hentryLt; omega)
      (fun heq => by rw [heq] at hentryLt; omega)
  have hsecondMem : second ∈ after := by
    rcases List.mem_append.1 hsecond with hmem | hmem
    · have hsecondLt := hlts second hmem first List.mem_cons_self
      omega
    · rcases List.mem_cons.1 hmem with rfl | hmem
      · exact absurd hlt (Nat.lt_irrefl _)
      · exact hmem
  have hnodup : (after.map Prod.fst).Nodup := List.pairwise_map.2 (hafter.imp fun h heq => by
    rw [heq] at h
    exact Nat.lt_irrefl _ h)
  rw [List.flatMap_append, hnone, List.flatMap_cons, List.nil_append,
    flatMap_eq_of_unique hnodup hsecondMem fun entry hentry hne => ?_]
  have hentryLt := hfirstLt entry hentry
  exact hf entry (List.mem_append_right _ (List.mem_cons_of_mem _ hentry))
    (fun heq => by rw [heq] at hentryLt; omega) hne

variable {d : Derivation} {key : ArcKey} {arc : Arc}

/-- The ends of an arc at different nodes, in the order of L. Deletion goes through the nodes of
L in their order, so the node with the smaller key frees its end first. -/
theorem filter_free_eq_pair_of_lt (hd : d.host.WellFormed) (hdistinct : o.toAssignment.Distinct)
    (hnew : key ∉ o.arcImages) (harc : d.host.arc? key = some arc) {first : ArcEnd}
    {lKey lKey' node node' : NodeKey} (hmem : (lKey, node) ∈ rule.goneImages o.toAssignment)
    (hmem' : (lKey', node') ∈ rule.goneImages o.toAssignment) (hat : arc.atEnd first = some node)
    (hat' : arc.atEnd first.opposite = some node') (hlt : lKey.index < lKey'.index) :
    (deleteAll rule o d).2.filter (·.arc == key)
      = [⟨key, first, lKey⟩, ⟨key, first.opposite, lKey'⟩] := by
  have himage := (GrammarRule.mem_goneImages.1 hmem).2.2
  have himage' := (GrammarRule.mem_goneImages.1 hmem').2.2
  have hne : node ≠ node' := by
    rintro rfl
    rw [hdistinct.node_inj himage himage'] at hlt
    exact Nat.lt_irrefl _ hlt
  rw [filter_free_deleteAll hd hdistinct hnew harc,
    flatMap_eq_of_two (rule.pairwise_goneImages _) hmem hmem' hlt
      fun entry hentry hother hother' => ?_,
    freedAt_of_atEnd hat (fun h => hne (Option.some.inj (h.symm.trans hat'))),
    freedAt_of_atEnd hat' fun h => hne (Option.some.inj ?_)]
  · rfl
  · rw [← h, ArcEnd.opposite_opposite, hat]
  · refine freedAt_eq_nil fun e he => ?_
    have hentryImage := (GrammarRule.mem_goneImages.1 hentry).2.2
    by_cases hfirst : e = first
    · rw [hfirst, hat] at he
      exact hother (hdistinct.node_inj hentryImage (he ▸ himage))
    · rw [ArcEnd.eq_opposite_of_ne hfirst, hat'] at he
      exact hother' (hdistinct.node_inj hentryImage (he ▸ himage'))

/-- **The free ends of an arc that loses both**: the one whose node comes first in L is offered
first, and of a loop the source. The nodes of L at the two ends are compared by their keys. If
they are one node, the arc is a loop, and both ends are noted when that node is deleted. -/
theorem exists_filter_free_eq_pair (hd : d.host.WellFormed) (hdistinct : o.toAssignment.Distinct)
    (hnew : key ∉ o.arcImages) (harc : d.host.arc? key = some arc)
    (hgone : ∀ e, ∃ node ∈ rule.goneNodes o.toAssignment, arc.atEnd e = some node) :
    ∃ first lKey lKey' lNode lNode', (deleteAll rule o d).2.filter (·.arc == key)
        = [⟨key, first, lKey⟩, ⟨key, first.opposite, lKey'⟩] ∧
      rule.l.node? lKey = some lNode ∧ rule.l.node? lKey' = some lNode' ∧
      o.node? lKey = arc.atEnd first ∧ o.node? lKey' = arc.atEnd first.opposite ∧
      (lKey.index < lKey'.index ∨ lKey = lKey' ∧ first = .source) := by
  obtain ⟨s, hs, hsource⟩ := hgone .source
  obtain ⟨t, ht, htarget⟩ := hgone .target
  obtain ⟨sKey, sNode, hsMem, hsNode, hsImage⟩ := GrammarRule.exists_of_mem_goneNodes hs
  obtain ⟨tKey, tNode, htMem, htNode, htImage⟩ := GrammarRule.exists_of_mem_goneNodes ht
  rcases Nat.lt_trichotomy sKey.index tKey.index with hlt | heq | hlt
  · exact ⟨.source, sKey, tKey, sNode, tNode,
      filter_free_eq_pair_of_lt hd hdistinct hnew harc hsMem htMem hsource htarget hlt,
      hsNode, htNode,
      hsImage.trans hsource.symm, htImage.trans htarget.symm, .inl hlt⟩
  · obtain rfl : sKey = tKey := congrArg Key.mk heq
    obtain rfl : s = t := Option.some.inj (hsImage.symm.trans htImage)
    refine ⟨.source, sKey, sKey, sNode, sNode, ?_, hsNode, hsNode, hsImage.trans hsource.symm,
      hsImage.trans htarget.symm, .inr ⟨rfl, rfl⟩⟩
    rw [filter_free_deleteAll hd hdistinct hnew harc,
      flatMap_eq_of_unique (rule.nodup_goneImages _) hsMem fun entry hentry hne => ?_]
    · unfold freedAt ArcEnd.both
      simp [hsource, htarget, ArcEnd.opposite]
    · refine freedAt_eq_nil fun e he => hne (hdistinct.node_inj
        (GrammarRule.mem_goneImages.1 hentry).2.2 (?_ : _ = some entry.2))
      cases e with
      | source => rw [hsImage, ← he, hsource]
      | target => rw [hsImage, ← he, htarget]
  · exact ⟨.target, tKey, sKey, tNode, sNode,
      filter_free_eq_pair_of_lt hd hdistinct hnew harc htMem hsMem htarget hsource hlt,
      htNode, hsNode,
      htImage.trans htarget.symm, hsImage.trans hsource.symm, .inl hlt⟩

end Deletion

/-! ## Offering both ends

`Settles` describes the offer of one end of an arc that has lost both. There are two of them, the
second in the graph that the first left, and nothing that happens to other arcs lies between. -/

/-- **An end is where an embedding rule puts it**: at the host image of the rule's node of R.
Without an embedding rule it dangles. -/
def GrammarRule.EndAt (rule : GrammarRule) (image : NodeKey → Option NodeKey)
    (atEnd : Option NodeKey) : Option EmbeddingRule → Prop
  | none => atEnd = none
  | some e => ∃ rKey place, rule.r.nodes.find? e.rNode = some rKey ∧ image rKey = some place ∧
      atEnd = some place

/-- The arc as it is seen once an end has gone to an embedding rule, or to none. -/
def Arc.seenAfter (arc : Arc) (taker : Option EmbeddingRule) : Arc :=
  { arc with directed := arc.directed || taker.any (·.newDirection != .any) }

/-- Nothing is seen of an end that was taken without asking for a direction, or whose arc
was directed or points both ways. -/
theorem Arc.isOriented_seenAfter {arc : Arc} {taker : Option EmbeddingRule}
    (h : arc.directed = true ∨ arc.doublyDirected = true ∨
      ∀ e, taker = some e → e.newDirection = .any) :
    (arc.seenAfter taker).isOriented = arc.isOriented := by
  unfold seenAfter isOriented
  rcases h with h | h | h
  · simp [h]
  · simp [h]
  · cases taker with
    | none => simp
    | some e => simp [h e rfl]

/-- Embedding rules that look at arcs with the same labels and orientation admit alike. It lets
the answer for an arc in between be found from the arc as it was. -/
theorem EmbeddingRule.find?_admits_congr {rules : List EmbeddingRule} {arc other : Arc}
    (hlabels : other.labels = arc.labels) (horiented : other.isOriented = arc.isOriented)
    (freed : ArcEnd) (deleted : Name) (neighbor : Option Node) :
    (rules.find? fun e => e.Admits other freed deleted neighbor)
      = rules.find? fun e => e.Admits arc freed deleted neighbor :=
  congrArg (rules.find? ·) (funext fun _ => decide_eq_decide.2 (admits_congr hlabels horiented))

namespace Reattachment

/-- **What offering one end of an arc that lost both comes to.** The other end is where it was,
whether it has been settled before or not, and of the flags only `directed` can change. -/
structure Settles (rule : GrammarRule) (image : NodeKey → Option NodeKey)
    (taker : Option EmbeddingRule) (freed : ArcEnd) (arc settled : Arc) : Prop where
  attributes : settled.toAttributes = arc.toAttributes
  directed : settled.directed = (arc.seenAfter taker).directed
  doublyDirected : settled.doublyDirected = arc.doublyDirected
  opposite : settled.atEnd freed.opposite = arc.atEnd freed.opposite
  freed : rule.EndAt image (settled.atEnd freed) taker

/-- What admits the arc then is what admits it as it is seen after that, wherever it ends. -/
theorem Settles.find?_admits {image : NodeKey → Option NodeKey} {taker : Option EmbeddingRule}
    {freed : ArcEnd} {arc settled : Arc} (h : Settles rule image taker freed arc settled)
    (given : Arc) (hlabels : arc.labels = given.labels) (hdirected : arc.directed = given.directed)
    (hboth : arc.doublyDirected = given.doublyDirected) (rules : List EmbeddingRule) (e : ArcEnd)
    (deleted : Name) (neighbor : Option Node) :
    (rules.find? fun rule => rule.Admits settled e deleted neighbor)
      = rules.find? fun rule => rule.Admits (given.seenAfter taker) e deleted neighbor := by
  have horiented : settled.isOriented = (given.seenAfter taker).isOriented := by
    unfold Arc.isOriented Arc.seenAfter
    rw [h.directed, h.doublyDirected, ← hdirected, ← hboth]
    rfl
  have hlabels' : settled.labels = (given.seenAfter taker).labels :=
    (congrArg Attributes.labels h.attributes).trans hlabels
  exact EmbeddingRule.find?_admits_congr hlabels' horiented ..

variable {images : Update.NodeImages} {image : NodeKey → Option NodeKey} {d done : Derivation}
  {ends : List FreeEnd} {f : FreeEnd} {arc : Arc}

/-- The embedding rules that an end is offered to are those that admit it, where the other end is
no neighbour. -/
theorem map_takers_both (hplace : ∀ e ∈ rule.embeddingRules,
      ∃ m n, rule.r.nodes.find? e.rNode = some m ∧ images.lookup m = some n)
    {lNode : Node} (hl : rule.l.node? f.lNode = some lNode) (g : Graph) (arc : Arc) :
    (takers rule images true g arc f).map Prod.fst
      = (rule.embeddingRules.find? fun e => e.Admits arc f.freed lNode.name none).toList := by
  unfold takers
  rw [if_pos rfl, List.map_take, map_admitting hplace hl, List.take_one, List.head?_filter]
  rfl

/-- The first embedding rule that admits the end gets it, and there are no copies. What takes the
end is given by the hypothesis, as who it is was settled before anything is handed out. -/
theorem settles_handOut (hr : rule.r.WellFormed)
    (himage : ∀ m, rule.r.hasNode m = true → image m = images.lookup m) {g : Graph}
    (harc : d.host.arc? f.arc = some arc) (hfree : arc.atEnd f.freed = none)
    {taker : Option EmbeddingRule}
    (htakers : (takers rule images true g arc f).map Prod.fst = taker.toList) :
    let handed := handOut d f true arc (takers rule images true g arc f)
    ∃ settled, handed.host.arc? f.arc = some settled ∧
      Settles rule image taker f.freed arc settled ∧
      handed.report.diagnostics.filter (·.isFor f.arc)
        = d.report.diagnostics.filter (·.isFor f.arc)
          ++ if taker.isNone then [.danglingEnd f.arc arc.name f.freed] else [] := by
  intro handed
  cases taker with
  | none =>
    have hhanded : handed = d.diagnose (.danglingEnd f.arc arc.name f.freed) :=
      congrArg (handOut d f true arc) (List.map_eq_nil_iff.1 htakers)
    refine ⟨arc, hhanded ▸ harc, ⟨rfl, (Bool.or_false _).symm, rfl, rfl, hfree⟩, ?_⟩
    rw [hhanded]
    exact remarks_handOut_nil d f true arc
  | some e =>
    obtain ⟨taker, htaker, rfl⟩ := List.map_eq_singleton_iff.1 htakers
    have hhanded : handed = handOut d f true arc [taker] := congrArg (handOut d f true arc) htaker
    refine ⟨attachedArc f.freed true taker arc, hhanded ▸ arc?_handOut_cons harc,
      ⟨rfl, rfl, rfl, ?_, ?_⟩, ?_⟩
    · exact atEnd_attachedArc_of_ne f.freed.opposite_ne taker
    -- what takes the end has found its node of R, and the comatch has that node in the same
    -- place
    · obtain ⟨m, hm, hplace⟩ := mem_admitting
        (takers_subset _ _ _ _ _ _ (htaker ▸ List.mem_singleton.2 rfl))
      obtain ⟨node, hnode, -⟩ := (hr.nodes_indexed _ _).1 hm
      refine ⟨m, taker.2, hm, (himage m (Graph.hasNode_iff.2 ⟨node, hnode⟩)).trans hplace, ?_⟩
      show (attachedArc f.freed true taker arc).atEnd f.freed = _
      unfold attachedArc attachedEnds
      cases f.freed <;> rfl
    · rw [hhanded]
      exact (List.append_nil _).symm

/-- **The two ends of an arc are settled one after the other**, the second on the arc that the
first left.

The list of free ends is cut at the first of the two and again at the second. What comes before,
in between and after belongs to other arcs and leaves this one alone, so two offers remain, and
each of them settles one end. -/
theorem reattachAll_pair (hr : rule.r.WellFormed)
    (himage : ∀ m, rule.r.hasNode m = true → image m = images.lookup m)
    (hfinds : ∀ e ∈ rule.embeddingRules,
      ∃ m n, rule.r.nodes.find? e.rNode = some m ∧ images.lookup m = some n)
    (hplace : ∀ m n, images.lookup m = some n → d.host.hasNode n = true) (hd : d.host.WellFormed)
    {key : ArcKey} {first : ArcEnd} {lKey lKey' : NodeKey} {lNode lNode' : Node}
    (hfree : ends.filter (·.arc == key) = [⟨key, first, lKey⟩, ⟨key, first.opposite, lKey'⟩])
    (hl : rule.l.node? lKey = some lNode) (hl' : rule.l.node? lKey' = some lNode')
    (harc : d.host.arc? key = some arc) (hdangling : ∀ e, arc.atEnd e = none)
    (hok : reattachAll rule images ends d = .ok done) :
    let taker := rule.embeddingRules.find? fun e => e.Admits arc first lNode.name none
    ∃ between, Settles rule image taker first arc between ∧
      let taker' := rule.embeddingRules.find? fun e =>
        e.Admits between first.opposite lNode'.name none
      ∃ settled, Settles rule image taker' first.opposite between settled ∧
        done.host.arc? key = some settled ∧ done.report.diagnostics.filter (·.isFor key)
          = d.report.diagnostics.filter (·.isFor key)
            ++ (if taker.isNone then [.danglingEnd key arc.name first] else [])
            ++ if taker'.isNone then [.danglingEnd key arc.name first.opposite] else [] := by
  intro taker
  have hboth : (doublyFreed ends).contains key = true := by
    rw [contains_doublyFreed, hfree]
    rfl
  obtain ⟨before, after, hends, hbefore, -, hafter⟩ := List.filter_eq_cons_iff.1 hfree
  unfold reattachAll at hok
  generalize doublyFreed ends = freedTwice at hok hboth
  rw [hends] at hok
  -- the end that comes first
  obtain ⟨d₁, d₂, hd₁, hreattaches, hd₂, hok⟩ := foldlM_reattach_cut rule hd hplace
    (fun g hg => ⟨(hends ▸ List.mem_append_left _ hg : g ∈ ends), by simpa using hbefore g hg⟩)
    harc hok
  dsimp only at hd₂
  rw [hboth] at hd₂
  obtain ⟨between, hbetween, hsettles, hremarks⟩ := settles_handOut hr himage
    (f := ⟨key, first, lKey⟩) (hd₁.arc?_self harc) (hdangling first)
    (map_takers_both hfinds hl d.host arc)
  rw [← hd₂] at hbetween hremarks
  refine ⟨between, hsettles, ?_⟩
  -- the other end
  have hplace₂ : ∀ m n, images.lookup m = some n → d₂.host.hasNode n = true := fun m n hm =>
    (hreattaches.hasNode n).trans ((hd₁.hasNode n).trans (hplace m n hm))
  obtain ⟨d₃, d₄, hd₃, hd₄, hdone⟩ := foldlM_reattach_single
    (f := ⟨key, first.opposite, lKey'⟩) hplace₂ hreattaches.wellFormed
    (fun g hg => (hends ▸ List.mem_append_right _ (List.mem_cons_of_mem _ hg) : g ∈ ends)) hafter
    hbetween hok
  dsimp only at hd₄
  rw [hboth] at hd₄
  obtain ⟨settled, hsettled, hsettles', hremarks'⟩ := settles_handOut hr himage
    (f := ⟨key, first.opposite, lKey'⟩) (hd₃.arc?_self hbetween)
    (hsettles.opposite.trans (hdangling _)) (map_takers_both hfinds hl' d₂.host between)
  rw [← hd₄] at hsettled hremarks'
  refine ⟨settled, hsettles', hdone.arc?_self hsettled, ?_⟩
  rw [hdone.remarks, hremarks', hd₃.remarks, hremarks, hd₁.remarks,
    congrArg Attributes.name hsettles.attributes]

end Reattachment

/-! ## The application

The free ends of the arc are known, and the offers to them; what is left is to put this behind
the part of an application that replaces L by R. -/

/-- **What becomes of an arc that loses both ends.** For a rule that was built, a well-formed
host and an option with distinct images that was applied, an arc that is no image and has both
ends at deleted nodes keeps its attributes. Each of its ends is put where the first embedding
rule puts it that admits it, without a neighbour; an end that none admits dangles and is
reported once, and that is all that is reported of the arc. The end whose node comes first in
L, or the source of a loop, is seen with the direction that the arc had, and the other end with
the one that the arc has then, which is the same where the arc was directed or points both
ways, or the first end was taken without asking for a direction. -/
theorem apply_embeds_both (hhost : host.WellFormed) (hrule : rule.Built)
    (hdistinct : o.toAssignment.Distinct) {report : ApplyReport}
    (hresult : (apply host rule o).result = .ok report) {key : ArcKey} {arc : Arc}
    (harc : host.arc? key = some arc) (hnew : key ∉ o.arcImages)
    (hgone : ∀ e, ∃ node ∈ report.removedNodes, arc.atEnd e = some node) :
    let after := (apply host rule o).host
    let image := (rule.comatch o.toAssignment report).node?
    ∃ first lKey lKey' lNode lNode', rule.l.node? lKey = some lNode ∧
      rule.l.node? lKey' = some lNode' ∧ o.node? lKey = arc.atEnd first ∧
      o.node? lKey' = arc.atEnd first.opposite ∧
      (lKey.index < lKey'.index ∨ lKey = lKey' ∧ first = .source) ∧
      let taker := rule.embeddingRules.find? fun e => e.Admits arc first lNode.name none
      let taker' := rule.embeddingRules.find? fun e =>
        e.Admits (arc.seenAfter taker) first.opposite lNode'.name none
      (∃ attached, after.arc? key = some attached ∧ attached.toAttributes = arc.toAttributes ∧
        attached.doublyDirected = arc.doublyDirected ∧
        attached.directed = ((arc.seenAfter taker).seenAfter taker').directed ∧
        rule.EndAt image (attached.atEnd first) taker ∧
        rule.EndAt image (attached.atEnd first.opposite) taker') ∧
      report.diagnostics.filter (·.isFor key)
        = (if taker.isNone then [.danglingEnd key arc.name first] else [])
          ++ (if taker'.isNone then [.danglingEnd key arc.name first.opposite] else []) ∧
      ((arc.directed = true ∨ arc.doublyDirected = true ∨
          ∀ e, taker = some e → e.newDirection = .any) →
        taker' = rule.embeddingRules.find? fun e =>
          e.Admits arc first.opposite lNode'.name none) := by
  intro after image
  have hcoherent := hrule.coherent
  have hfits := fits_of_apply_eq_ok hcoherent hresult
  obtain ⟨d, done, images, happly, hprepared, hok, hreattaches⟩ :=
    exists_reattachAll_of_apply_eq_ok hhost hcoherent hdistinct hresult
  have hafter : after = done.host := congrArg Application.host happly
  rw [happly] at hresult
  cases hresult
  rw [hreattaches.removals.nodes, hprepared.replaced.removedNodes] at hgone
  obtain ⟨first, lKey, lKey', lNode, lNode', hfree, hl, hl', hat, hat', horder⟩ :=
    Deletion.exists_filter_free_eq_pair (d := { host }) hhost hdistinct hnew harc hgone
  refine ⟨first, lKey, lKey', lNode, lNode', hl, hl', hat, hat', horder, ?_⟩
  -- when its turn comes the arc is still there, and has lost both ends
  have hlost : d.host.arc? key = some (arc.without (rule.goneNodes o.toAssignment)) :=
    hprepared.replaced.arcs.get?_of_fate harc (GrammarRule.arcFate_other hnew arc)
  have hdangling : ∀ e, (arc.without (rule.goneNodes o.toAssignment)).atEnd e = none := by
    intro e
    obtain ⟨node, hnode, hend⟩ := hgone e
    rw [Arc.atEnd_without, hend]
    simp [hnode]
  obtain ⟨between, hbetween, settled, hsettled, harcAfter, hremarks⟩ :=
    Reattachment.reattachAll_pair hcoherent.r_wellFormed
      (hprepared.comatch_node? hhost hcoherent hdistinct (congrArg Application.result happly))
      (hprepared.exists_place hrule hfits) (hprepared.hasNode hcoherent hdistinct hfits)
      hprepared.replaced.wellFormed hfree hl hl' hlost hdangling hok
  -- what admits an end does not depend on where the ends are, so it is told by the arc as it was
  have hwithout : (rule.embeddingRules.find? fun e =>
        e.Admits (arc.without (rule.goneNodes o.toAssignment)) first lNode.name none)
      = rule.embeddingRules.find? fun e => e.Admits arc first lNode.name none :=
    EmbeddingRule.find?_admits_congr (by rfl) (by rfl) ..
  rw [hwithout] at hbetween hremarks
  intro taker taker'
  rw [hbetween.find?_admits arc rfl rfl rfl] at hsettled hremarks
  rw [hprepared.silent] at hremarks
  have hfirst := hsettled.opposite
  rw [ArcEnd.opposite_opposite] at hfirst
  refine ⟨⟨settled, hafter ▸ harcAfter, hsettled.attributes.trans hbetween.attributes,
    hsettled.doublyDirected.trans hbetween.doublyDirected, ?_, hfirst ▸ hbetween.freed,
    hsettled.freed⟩, hremarks, fun hseen => ?_⟩
  · rw [hsettled.directed]
    show (between.directed || _) = _
    rw [hbetween.directed]
    rfl
  · exact EmbeddingRule.find?_admits_congr (by rfl) (Arc.isOriented_seenAfter hseen) ..

/-- The rule that puts one node in the place of two. Arcs that were at the first of these come
to point at it, and so do arcs that were at the second in some direction. -/
def GrammarRule.joinEnds (oldDirection : ArcDirection) : GrammarRule where
  name := "join ends"
  l := { nodes := .ofElements [{ name := "a" }, { name := "b" }] }
  k := .empty
  r := { nodes := .ofElements [{ name := "c" }] }
  nodeConditions := [{}, {}]
  arcConditions := []
  hyperarcConditions := []
  contextNodes := .empty
  contextArcs := .empty
  contextHyperArcs := .empty
  embeddingRules := [{ rNode := "c", lNode := some "a", newDirection := .into },
    { rNode := "c", lNode := some "b", oldDirection, newDirection := .into }]

/-- The rule passes every check of a draft, whatever old direction is asked for. -/
theorem GrammarRule.joinEnds_built (oldDirection : ArcDirection) :
    (GrammarRule.joinEnds oldDirection).Built :=
  ⟨{ name := "join ends"
     l := (joinEnds oldDirection).l
     r := (joinEnds oldDirection).r
     embeddingRules := (joinEnds oldDirection).embeddingRules },
    ⟨Graph.membersDistinct_of_no_hyperarcs rfl, Graph.membersDistinct_of_no_hyperarcs rfl, nofun⟩,
    rfl⟩

/-- Both ends of an edge go to the new node, if the embedding rules mind no old direction. -/
theorem apply_embeds_both_joinEnds :
    let o : RuleOption := { nodes := [some ⟨0⟩, some ⟨1⟩] }
    let application := apply (.edge false) (.joinEnds .any) o
    ∃ report attached, application.result = .ok report ∧
      report.diagnostics.filter (·.isFor ⟨0⟩) = [] ∧
      application.host.arc? ⟨0⟩ = some attached ∧ attached.directed = true ∧
      attached.source = some ⟨2⟩ ∧ attached.target = some ⟨2⟩ := by
  intro o application
  have hdistinct : o.toAssignment.Distinct := ⟨by decide, by decide, by decide⟩
  have hresult : application.result
      = .ok { removedNodes := [⟨0⟩, ⟨1⟩], addedNodes := [⟨2⟩] } :=
    eq_ok_of_toOption (by decide +kernel)
  obtain ⟨arc, harc, hsource, htarget⟩ : ∃ arc, (Graph.edge false).arc? ⟨0⟩ = some arc ∧
      arc.source = some ⟨0⟩ ∧ arc.target = some ⟨1⟩ := ⟨_, rfl, rfl, rfl⟩
  obtain ⟨first, lKey, lKey', lNode, lNode', hl, hl', hat, hat', horder, hattached, hremarks, -⟩ :=
    apply_embeds_both (Graph.edge_wellFormed false) (GrammarRule.joinEnds_built .any) hdistinct
      hresult harc (by decide) fun e => by
        cases e with
        | source => exact ⟨⟨0⟩, by decide, hsource⟩
        | target => exact ⟨⟨1⟩, by decide, htarget⟩
  cases harc
  have hkeys : ∀ {key node}, (GrammarRule.joinEnds .any).l.node? key = some node →
      key = ⟨0⟩ ∨ key = ⟨1⟩ := by
    rintro ⟨_ | _ | _⟩ node h
    · exact .inl rfl
    · exact .inr rfl
    · exact nomatch h
  -- the source is at the image of the node that comes first
  obtain hlt | ⟨rfl, rfl⟩ := horder
  case inr => exact nomatch hat.symm.trans hat'
  obtain ⟨rfl, rfl⟩ : lKey = ⟨0⟩ ∧ lKey' = ⟨1⟩ := by
    rcases hkeys hl with rfl | rfl <;> rcases hkeys hl' with rfl | rfl <;> simp at hlt ⊢
  cases first with
  | target => exact nomatch hat
  | source =>
    cases hl
    cases hl'
    obtain ⟨attached, harc, -, -, hdirected, hsource, htarget⟩ := hattached
    obtain ⟨rKey, place, hr, hplace, hsource⟩ := hsource
    obtain ⟨rKey', place', hr', hplace', htarget⟩ := htarget
    cases hr
    cases hr'
    cases hplace
    cases hplace'
    exact ⟨_, attached, hresult, hremarks, harc, hdirected, hsource, htarget⟩

/-- **An end may be refused because of what became of the other.** The edge has no direction,
so the second embedding rule admits the end at the second node. But the first end is offered
before it, and its embedding rule makes the arc point at the new node: from then on the second
end is where an arc leads to, and not where it comes from. -/
theorem second_end_refused_joinEnds :
    let o : RuleOption := { nodes := [some ⟨0⟩, some ⟨1⟩] }
    let application := apply (.edge false) (.joinEnds .outOf) o
    ∃ report arc lNode, (GrammarRule.joinEnds .outOf).Built ∧ (Graph.edge false).WellFormed ∧
      o.toAssignment.Distinct ∧ application.result = .ok report ∧
      (Graph.edge false).arc? ⟨0⟩ = some arc ∧ (⟨0⟩ : ArcKey) ∉ o.arcImages ∧
      (∀ e, ∃ node ∈ report.removedNodes, arc.atEnd e = some node) ∧
      (GrammarRule.joinEnds .outOf).l.node? ⟨1⟩ = some lNode ∧ o.node? ⟨1⟩ = arc.atEnd .target ∧
      ((GrammarRule.joinEnds .outOf).embeddingRules.find? fun e =>
        e.Admits arc .target lNode.name none).isSome = true ∧
      (application.host.arc? ⟨0⟩).map (·.target) = some none ∧
      report.diagnostics = [.danglingEnd ⟨0⟩ "e" .target] := by
  intro o application
  have hresult : application.result = .ok {
      removedNodes := [⟨0⟩, ⟨1⟩], addedNodes := [⟨2⟩]
      diagnostics := [.danglingEnd ⟨0⟩ "e" .target] } :=
    eq_ok_of_toOption (by decide +kernel)
  refine ⟨_, _, _, GrammarRule.joinEnds_built .outOf, Graph.edge_wellFormed false,
    ⟨by decide, by decide, by decide⟩, hresult, rfl, by decide, ?_, rfl, rfl, by decide +kernel,
    by decide +kernel, rfl⟩
  intro e
  cases e with
  | source => exact ⟨⟨0⟩, by decide, rfl⟩
  | target => exact ⟨⟨1⟩, by decide, rfl⟩

end GraphGrammar
