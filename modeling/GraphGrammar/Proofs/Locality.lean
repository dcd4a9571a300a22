import GraphGrammar.Proofs.ConfluentSet
import GraphGrammar.Proofs.Reconnection
import GraphGrammar.Proofs.Redraft

/-!
# An application touches the match and what hangs on it

The report of an application lists what went and what came, and that is all that
went and came (`Registry.EditedFor`). What went are the images of the elements of
L that the context does not name. Of what is no image, nodes stay as they are,
hyperarcs lose the members that went, and arcs change only if an end of theirs
went, and then in their ends and their direction alone (`apply_local`).

For one kind of elements this follows from what the fates do: a fate takes an
element or leaves it its name (`Registry.nameOf_fate`). Arcs are seen to twice. What
reattaching adds to them comes after what R adds (`Registry.EditedFor.append`).

Locality is what makes a report useful to a caller that keeps something beside the graph, such as
a drawing: it tells which entries to drop and which to add, and all other keys stand for the
elements that they stood for.
-/

namespace GraphGrammar

open Attributed

variable {host : Graph} {rule : GrammarRule} {o : RuleOption}

/-! ## The context by name

A rule keeps an element of L if the context has an element of its name. The applier goes by the
correspondences instead, and for a rule that was built the two are the same. -/

/-- An element of L has a counterpart if the context names it, as R has an element
of every name of the context. -/
theorem Pairs.isSome_right? {κ : Kind} {α : Type} [Attributed α] {l k r : Registry κ α}
    {c : Correspondence (Key κ) (Key κ)}
    (h : Pairs l r (fun name => k.names.contains name = true) c) (hl : Graph.Indexed l)
    (hshared : ∀ name, k.names.contains name = true → ∃ rKey, r.find? name = some rKey)
    {key : Key κ} {a : α} (ha : l.get? key = some a) :
    (c.right? key).isSome = k.names.contains (nameOf a) := by
  have hname := hl.find?_eq_some ha
  rw [Bool.eq_iff_iff, Option.isSome_iff_exists]
  constructor
  · rintro ⟨rKey, hright⟩
    obtain ⟨name, hnamed, hfind, -⟩ := (h.right?_iff key rKey).1 hright
    exact hl.eq_of_find? hname hfind ▸ hnamed
  · intro hnamed
    obtain ⟨rKey, hfind⟩ := hshared _ hnamed
    exact ⟨rKey, (h.right?_iff key rKey).2 ⟨_, hnamed, hname, hfind⟩⟩

/-- What is found under the names of elements is found under the names of the index. -/
theorem Graph.Indexed.exists_find?_of_contains {κ : Kind} {α : Type} [Attributed α]
    {k side : Registry κ α} (h : Indexed k)
    (helements : ∀ a ∈ k.elements, ∃ key, side.find? (nameOf a) = some key) (name : Name)
    (hname : k.names.contains name = true) : ∃ key, side.find? name = some key := by
  obtain ⟨key, hfind⟩ := NameMap.contains_iff.1 hname
  obtain ⟨a, ha, rfl⟩ := h.exists_of_find? hfind
  exact helements a (Registry.mem_elements_iff.2 ⟨key, ha⟩)

/-! ## One kind of elements

`Registry.EditedFor` is about two registries and two lists of keys. It is proved from what a fate
may do and then used for nodes, arcs and hyperarcs with their own fates. -/

namespace Registry

variable {κ : Kind} {α : Type} [Attributed α]

/-- **One kind of elements before and after an application**, by the keys that were removed and
added. An element of L belongs to the context if that names it. Names are compared as well: the
image of a context element bears the name it had. -/
structure EditedFor (l k : Registry κ α) (image? : Key κ → Option (Key κ))
    (before after : Registry κ α) (removed added : List (Key κ)) : Prop where
  keys : after.keys = before.keys.filter (!removed.contains ·) ++ added
  removed_nodup : removed.Nodup
  removed_alive : ∀ key ∈ removed, before.contains key = true
  added_nodup : added.Nodup
  /-- No key is given that has ever been in use. -/
  added_fresh : ∀ key ∈ added, before.cells.length ≤ key.index
  mem_removed : ∀ image, image ∈ removed ↔ ∃ key a, l.get? key = some a ∧
    k.names.contains (nameOf a) = false ∧ image? key = some image
  context_named : ∀ key a, l.get? key = some a → k.names.contains (nameOf a) = true →
    ∃ image given kept, image? key = some image ∧ before.get? image = some given ∧
      after.get? image = some kept ∧ nameOf kept = nameOf given

/-- **A fate takes an element or leaves it its name.** -/
theorem nameOf_fate {gone : List (Key κ)} {changes : List (Key κ × (α → α))}
    (hchanges : ∀ change ∈ changes, ∀ a, nameOf (change.2 a) = nameOf a) {key : Key κ} {a b : α}
    (h : fate gone changes key a = some b) : nameOf b = nameOf a := by
  unfold fate at h
  split at h
  · exact nomatch h
  · cases h
    rcases changeOf_eq_or changes key with hid | ⟨change, hchange, heq⟩
    · rw [hid]
      rfl
    · rw [heq]
      exact hchanges change hchange a

omit [Attributed α] in
/-- A fate takes exactly what is listed to go. -/
theorem isSome_fate {gone : List (Key κ)} {changes : List (Key κ × (α → α))} (key : Key κ) (a : α) :
    (fate gone changes key a).isSome = !gone.contains key := by
  unfold fate
  split <;> simp_all

variable {l k r before after : Registry κ α} {c : Correspondence (Key κ) (Key κ)}
  {image? : Key κ → Option (Key κ)} {fate : Key κ → α → Option α} {fresh : List α}

/-- **Where the images of what is outside the context go**, and nothing else goes and
nothing is renamed, the elements are edited for the rule. -/
theorem Rewritten.editedFor (h : Rewritten before after fate fresh) (hl : Graph.Indexed l)
    (hpairs : Pairs l r (fun name => k.names.contains name = true) c)
    (hshared : ∀ name, k.names.contains name = true → ∃ rKey, r.find? name = some rKey)
    (hinj : ∀ {key other image}, image? key = some image → image? other = some image →
      key = other)
    (halive : ∀ {key image}, image? key = some image → before.contains image = true)
    (hcontext : ∀ {key rKey}, c.right? key = some rKey → ∃ image, image? key = some image)
    (hstays : ∀ key a, (fate key a).isSome = !(c.gone l.keys image?).contains key)
    (hname : ∀ {key a b}, fate key a = some b → nameOf b = nameOf a) :
    EditedFor l k image? before after (c.gone l.keys image?) (before.nextKeys fresh.length) where
  keys := h.keys hstays
  removed_nodup := Correspondence.nodup_gone l.nodup_keys hinj
  removed_alive image hgone := by
    obtain ⟨key, -, -, himage⟩ := Correspondence.mem_gone.1 hgone
    exact halive himage
  added_nodup := nodup_nextKeys ..
  added_fresh key hkey := (mem_nextKeys.1 hkey).1
  mem_removed image := by
    rw [Correspondence.mem_gone]
    constructor
    · rintro ⟨key, hkey, hnone, himage⟩
      obtain ⟨a, ha⟩ := contains_iff.1 (mem_keys_iff.1 hkey)
      have hnamed := hpairs.isSome_right? hl hshared ha
      rw [hnone] at hnamed
      exact ⟨key, a, ha, hnamed.symm, himage⟩
    · rintro ⟨key, a, ha, hnamed, himage⟩
      rw [← hpairs.isSome_right? hl hshared ha, Option.isSome_eq_false_iff,
        Option.isNone_iff_eq_none] at hnamed
      exact ⟨key, mem_keys_iff.2 (contains_iff.2 ⟨a, ha⟩), hnamed, himage⟩
  context_named key a ha hnamed := by
    rw [← hpairs.isSome_right? hl hshared ha] at hnamed
    obtain ⟨rKey, hright⟩ := Option.isSome_iff_exists.1 hnamed
    obtain ⟨image, himage⟩ := hcontext hright
    obtain ⟨given, hgiven⟩ := contains_iff.1 (halive himage)
    -- the image of a context element is not among those that go
    have hkept : (fate image given).isSome = true := by
      simpa [hstays] using notMem_gone hinj hright himage
    obtain ⟨kept, hkept⟩ := Option.isSome_iff_exists.1 hkept
    exact ⟨image, given, kept, himage, hgiven, h.get?_of_fate hgiven hkept, hname hkept⟩

/-- Elements may be added afterwards, as long as the names of those that are there stay. This is
the part of the reattachment, which adds copies of arcs and changes the ends of others. -/
theorem EditedFor.append {final : Registry κ α} {removed added more : List (Key κ)}
    (h : EditedFor l k image? before after removed added) (hkeys : final.keys = after.keys ++ more)
    (hfresh : ∀ key ∈ more, before.cells.length ≤ key.index)
    (hname : ∀ key a, after.get? key = some a →
      ∃ b, final.get? key = some b ∧ nameOf b = nameOf a) :
    EditedFor l k image? before final removed (added ++ more) where
  keys := by rw [hkeys, h.keys, List.append_assoc]
  removed_nodup := h.removed_nodup
  removed_alive := h.removed_alive
  added_nodup := by
    have hnodup := final.nodup_keys
    rw [hkeys, h.keys, List.append_assoc] at hnodup
    exact hnodup.of_append_right
  added_fresh key hkey := (List.mem_append.1 hkey).elim (h.added_fresh key) (hfresh key)
  mem_removed := h.mem_removed
  context_named key a ha hnamed := by
    obtain ⟨image, given, kept, himage, hgiven, hkept, hsame⟩ := h.context_named key a ha hnamed
    obtain ⟨last, hlast, hsame'⟩ := hname image kept hkept
    exact ⟨image, given, last, himage, hgiven, hlast, hsame'.trans hsame⟩

end Registry

/-! ## L replaced by R

Before the free ends are reattached each registry is rewritten by a fate, with the elements of R
behind it. The three lemmas put in what is known of each kind. -/

namespace Replaced

variable {d : Derivation} (h : Replaced host rule o d) (hrule : rule.Built)
  (hdistinct : o.toAssignment.Distinct) (hfits : o.Fits host rule)

include h hrule hdistinct hfits

/-- **The nodes before and after L was replaced by R**: the images of nodes that the context does
not name have gone and are reported, and the nodes of R outside the context have come. -/
theorem editedFor_nodes : Registry.EditedFor rule.l.nodes rule.k.nodes o.node? host.nodes
    d.host.nodes d.report.removedNodes d.report.addedNodes := by
  have hcoherent := hrule.coherent
  rw [h.removedNodes, h.addedNodes, ← List.length_map]
  refine h.nodes.editedFor hcoherent.l_wellFormed.nodes_indexed hcoherent.node_pairs
    (hcoherent.k_wellFormed.nodes_indexed.exists_find?_of_contains hrule.context_fits.2.nodes)
    hdistinct.node_inj (fun himage => (hfits.of_node? hcoherent himage).2.2)
    (hfits.exists_node? hcoherent) (fun key node => ?_) fun {key node kept} hkept => ?_
  · exact Option.isSome_map.trans (Registry.isSome_fate key node)
  · obtain ⟨brought, hbrought, rfl⟩ := Option.map_eq_some_iff.1 hkept
    refine (congrArg Attributes.name (GrammarRule.toAttributes_nodeMoves key brought)).trans ?_
    refine Registry.nameOf_fate (fun change hchange node => ?_) hbrought
    obtain ⟨_, _, _, -, -, hmove⟩ := Registry.mem_changesOf.1 hchange
    rw [← hmove]
    exact Update.nameOf_moveAlong ..

/-- **The arcs before and after L was replaced by R.** An arc that has lost an end is still there
under its name; what becomes of that end is a matter of the reattachment. -/
theorem editedFor_arcs : Registry.EditedFor rule.l.arcs rule.k.arcs o.arc? host.arcs
    d.host.arcs d.report.removedArcs d.report.addedArcs := by
  have hcoherent := hrule.coherent
  rw [h.removedArcs, h.addedArcs, ← List.length_map]
  refine h.arcs.editedFor hcoherent.l_wellFormed.arcs_indexed hcoherent.arc_pairs
    (hcoherent.k_wellFormed.arcs_indexed.exists_find?_of_contains fun arc harc => ?_)
    hdistinct.arc_inj (hfits.contains_arc hcoherent) (fun hright => ?_) (fun key arc => ?_)
    fun {key arc kept} hkept => ?_
  · obtain ⟨_, hother, -⟩ := hrule.context_fits.2.arcs arc harc
    obtain ⟨rKey, hfind, -⟩ := Option.bind_eq_some_iff.1 hother
    exact ⟨rKey, hfind⟩
  · obtain ⟨image, _, himage, -⟩ := hfits.exists_arc? hcoherent hright
    exact ⟨image, himage⟩
  · exact Registry.isSome_fate key _
  · refine (Registry.nameOf_fate (a := arc.without _)
      (fun change hchange arc => ?_) hkept).trans rfl
    obtain ⟨_, _, _, -, -, hbrought⟩ := Registry.mem_changesOf.1 hchange
    rw [← hbrought]
    exact Update.nameOf_broughtArc ..

/-- **The hyperarcs before and after L was replaced by R.** One that has lost a member is there
still, under its name. -/
theorem editedFor_hyperarcs : Registry.EditedFor rule.l.hyperarcs rule.k.hyperarcs o.hyperarc?
    host.hyperarcs d.host.hyperarcs d.report.removedHyperArcs d.report.addedHyperArcs := by
  have hcoherent := hrule.coherent
  rw [h.removedHyperArcs, h.addedHyperArcs, ← List.length_map]
  refine h.hyperarcs.editedFor hcoherent.l_wellFormed.hyperarcs_indexed hcoherent.hyperarc_pairs
    (hcoherent.k_wellFormed.hyperarcs_indexed.exists_find?_of_contains fun hyperarc hmem => ?_)
    hdistinct.hyperarc_inj (hfits.contains_hyperarc hcoherent) (fun hright => ?_)
    (fun key hyperarc => ?_) fun {key hyperarc kept} hkept => ?_
  · obtain ⟨_, hother, -⟩ := hrule.context_fits.2.hyperarcs hyperarc hmem
    obtain ⟨rKey, hfind, -⟩ := Option.bind_eq_some_iff.1 hother
    exact ⟨rKey, hfind⟩
  · obtain ⟨image, _, himage, -⟩ := hfits.exists_hyperarc? hcoherent hright
    exact ⟨image, himage⟩
  · exact Registry.isSome_fate key _
  · refine (Registry.nameOf_fate (a := hyperarc.without _) (fun change hchange hyperarc => ?_)
      hkept).trans rfl
    obtain ⟨_, _, _, -, -, hbrought⟩ := Registry.mem_changesOf.1 hchange
    rw [← hbrought]
    exact Update.nameOf_broughtHyperArc ..

end Replaced

/-! ## The whole application

Reattaching changes arcs at free ends and adds copies, and an arc with a free end is one that had
an end at a node that went. So what is neither an image nor at such a node is not touched. -/

/-- **A report tells the host after an application from the one before.** Beside the three kinds
it says what has become of elements that are no images. -/
structure ApplyReport.Tells (report : ApplyReport) (rule : GrammarRule) (o : RuleOption)
    (host after : Graph) : Prop where
  nodes : Registry.EditedFor rule.l.nodes rule.k.nodes o.node? host.nodes after.nodes
    report.removedNodes report.addedNodes
  arcs : Registry.EditedFor rule.l.arcs rule.k.arcs o.arc? host.arcs after.arcs
    report.removedArcs report.addedArcs
  hyperarcs : Registry.EditedFor rule.l.hyperarcs rule.k.hyperarcs o.hyperarc? host.hyperarcs
    after.hyperarcs report.removedHyperArcs report.addedHyperArcs
  node_unmatched : ∀ key node, host.node? key = some node → key ∉ o.nodeImages →
    after.node? key = some node
  hyperarc_unmatched : ∀ key hyperarc, host.hyperarc? key = some hyperarc →
    key ∉ o.hyperarcImages → after.hyperarc? key = some (hyperarc.without report.removedNodes)
  arc_unmatched : ∀ key arc, host.arc? key = some arc → key ∉ o.arcImages →
    (∀ node ∈ arc.ends, node ∉ report.removedNodes) → after.arc? key = some arc
  arc_unmatched_attributes : ∀ key arc, host.arc? key = some arc → key ∉ o.arcImages →
    ∃ kept, after.arc? key = some kept ∧ kept.SameAttributes arc

/-- An arc with no end at a node that went has no free end, as these were at nodes that
went. -/
theorem Deletion.notMem_free (hhost : host.WellFormed) {key : ArcKey} {arc : Arc}
    (harc : host.arc? key = some arc)
    (hends : ∀ node ∈ arc.ends, node ∉ rule.goneNodes o.toAssignment) :
    key ∉ (deleteAll rule o { host }).2.map (·.arc) := by
  intro hfree
  obtain ⟨f, hf, rfl⟩ := List.mem_map.1 hfree
  obtain ⟨given, node, hgiven, hend, hgone⟩ :=
    exists_of_free_deleteAll (d := { host }) hhost f hf
  cases harc.symm.trans hgiven
  exact hends node (Arc.mem_ends_iff_atEnd.2 ⟨_, hend⟩) hgone

/-- **An application is local, and its report is exact.** For a well-formed host, a rule that was
built and an option whose images are distinct: if the application is carried out, the elements
that are there afterwards are those that were there without those that are listed as removed,
which are the images of what the context does not name, and then those that are listed as added.
What is no image stays as it is, except that it lets go of nodes that went, and that an arc that
let go may have been attached again. What the context names keeps its name.

Nothing is asked of the option beyond distinct images; in particular it may have been recognized
in an earlier host, as long as it is applied in this one. -/
theorem apply_local (hhost : host.WellFormed) (hrule : rule.Built)
    (hdistinct : o.toAssignment.Distinct) {report : ApplyReport}
    (hresult : (apply host rule o).result = .ok report) :
    report.Tells rule o host (apply host rule o).host := by
  have hcoherent := hrule.coherent
  have hfits := fits_of_apply_eq_ok hcoherent hresult
  obtain ⟨d, done, images, happly, h, -, hreattaches⟩ :=
    apply_eq_of_fits hhost hcoherent hdistinct hfits
  rw [happly] at hresult ⊢
  cases hresult
  obtain ⟨copies, hkeys, hadded, hnew⟩ := hreattaches.copies
  have harcsLength : host.arcs.cells.length ≤ d.host.arcs.cells.length :=
    h.arcs.length ▸ Nat.le_add_right ..
  have hremoved : done.report.removedNodes = rule.goneNodes o.toAssignment :=
    hreattaches.removals.nodes.trans h.removedNodes
  -- before the free ends are offered, an arc that is no image has let go of nodes and no more
  have harc : ∀ key arc, host.arc? key = some arc → key ∉ o.arcImages →
      d.host.arc? key = some (arc.without (rule.goneNodes o.toAssignment)) :=
    fun key arc hgiven hkey => by
      rw [h.arc?_of_notMem (Registry.lt_of_get?_eq_some hgiven) hkey, hgiven]
      rfl
  constructor
  · rw [hreattaches.removals.nodes, hreattaches.addedNodes]
    exact hreattaches.nodes ▸ h.editedFor_nodes hrule hdistinct hfits
  · rw [hreattaches.removals.arcs, hadded]
    refine (h.editedFor_arcs hrule hdistinct hfits).append hkeys
      (fun key hkey => Nat.le_trans harcsLength (hnew key hkey)) fun key arc hkept => ?_
    obtain ⟨attached, hattached, hsame⟩ := hreattaches.kept key arc hkept
    exact ⟨attached, hattached, congrArg Attributes.name hsame.attributes⟩
  · rw [hreattaches.removals.hyperarcs, hreattaches.addedHyperArcs]
    exact hreattaches.hyperarcs ▸ h.editedFor_hyperarcs hrule hdistinct hfits
  · intro key node hnode hkey
    have hkept := h.node?_of_notMem (Registry.lt_of_get?_eq_some hnode) hkey
    exact ((congrArg (Registry.get? · key) hreattaches.nodes).trans hkept).trans hnode
  · intro key hyperarc hgiven hkey
    have hkept := h.hyperarc?_of_notMem (Registry.lt_of_get?_eq_some hgiven) hkey
    rw [hgiven] at hkept
    rw [hremoved]
    exact (congrArg (Registry.get? · key) hreattaches.hyperarcs).trans hkept
  · intro key arc hgiven hkey hends
    rw [hremoved] at hends
    -- without an end at a node that went, it is no free arc, and no offer changes it
    have hkept := harc key arc hgiven hkey
    rw [Arc.without_of_disjoint hends] at hkept
    exact (hreattaches.arc? key (Registry.lt_of_get?_eq_some hkept)
      (Deletion.notMem_free hhost hgiven hends)).trans hkept
  · intro key arc hgiven hkey
    obtain ⟨kept, hkept, hsame⟩ := hreattaches.kept key _ (harc key arc hgiven hkey)
    exact ⟨kept, hkept, hsame.trans ⟨rfl, rfl⟩⟩

/-- Where a node is replaced, the arc at it is attached again under the name it had, and
the hyperarc loses it as a member. -/
theorem apply_local_replaceNode :
    let o : RuleOption := { nodes := [some ⟨1⟩] }
    let application := apply (.twiceConnected "b") (.replaceNode .any) o
    o.toAssignment.Distinct ∧ ∃ report, application.result = .ok report ∧
      report.removedNodes = [⟨1⟩] ∧ report.addedNodes = [⟨2⟩] ∧
      application.host.nodes.keys = [⟨0⟩, ⟨2⟩] ∧
      (∃ hyperarc, application.host.hyperarc? ⟨0⟩ = some hyperarc ∧ hyperarc.members = [⟨0⟩]) ∧
      ∃ arc, application.host.arc? ⟨0⟩ = some arc ∧ arc.name = "e" ∧ arc.target = some ⟨2⟩ := by
  intro o application
  have hdistinct : o.toAssignment.Distinct := ⟨by decide, by decide, by decide⟩
  obtain ⟨report, hresult, hremoved, hadded, htarget⟩ : ∃ report,
      application.result = .ok report ∧ report.removedNodes = [⟨1⟩] ∧ report.addedNodes = [⟨2⟩] ∧
        (application.host.arc? ⟨0⟩).bind (·.target) = some ⟨2⟩ :=
    ⟨_, rfl, by decide +kernel⟩
  have h : report.Tells _ o (.twiceConnected "b") application.host :=
    apply_local Graph.twiceConnected_wellFormed (GrammarRule.replaceNode_built .any) hdistinct
      hresult
  have hkeys := h.nodes.keys
  rw [hremoved, hadded] at hkeys
  have hhyperarc := h.hyperarc_unmatched ⟨0⟩ _ rfl nofun
  rw [hremoved] at hhyperarc
  obtain ⟨arc, harc, hsame⟩ := h.arc_unmatched_attributes ⟨0⟩ _ rfl nofun
  rw [harc] at htarget
  exact ⟨hdistinct, report, hresult, hremoved, hadded, hkeys, ⟨_, hhyperarc, rfl⟩,
    arc, harc, congrArg Attributes.name hsame.attributes, htarget⟩

end GraphGrammar
