import GraphGrammar.Proofs.Deletion
import GraphGrammar.Proofs.Offer

/-!
# Reattaching stays at the free ends

Whatever the embedding rules say, reattaching changes only arcs that have a free
end, and appends copies of such arcs. It is never refused, because the nodes it
attaches ends to are places of nodes of R, and these are alive.

`Reattaches` is this frame; it is kept by each step (`reattach_succeeds`) and so
by the whole pass (`reattachAll_succeeds`). Without embedding rules the pass
leaves the host alone.

The frame is closed under one step after another, so the pass over all free ends is an induction
on their list. That an arc may be offered twice, once for each of its ends, makes no difference
to it.
-/

namespace GraphGrammar

open Attributed

/-- Two arcs have the same attributes, and are doubly directed or not alike. The flag for one
direction may change when an embedding rule asks for one. -/
structure Arc.SameAttributes (arc other : Arc) : Prop where
  attributes : arc.toAttributes = other.toAttributes
  doublyDirected : arc.doublyDirected = other.doublyDirected

/-- An arc has its own attributes. -/
theorem Arc.SameAttributes.refl (arc : Arc) : arc.SameAttributes arc := ⟨rfl, rfl⟩

/-- Attributes that are kept twice are kept. -/
theorem Arc.SameAttributes.trans {arc other third : Arc} (h : arc.SameAttributes other)
    (h' : other.SameAttributes third) : arc.SameAttributes third :=
  ⟨h.attributes.trans h'.attributes, h.doublyDirected.trans h'.doublyDirected⟩

/-- **What reattaching may change**: the ends and the direction of arcs among the free ones. Arcs
beyond those that were there are added and listed. It is a relation between two derivations, so
that any number of offers can be put together. -/
structure Reattaches (before after : Derivation) (free : List ArcKey) : Prop where
  wellFormed : after.host.WellFormed
  nodes : after.host.nodes = before.host.nodes
  hyperarcs : after.host.hyperarcs = before.host.hyperarcs
  globals : before.host.SameGlobals after.host
  arc? : ∀ key, key.index < before.host.arcs.cells.length → key ∉ free →
    after.host.arc? key = before.host.arc? key
  kept : ∀ key arc, before.host.arc? key = some arc → ∃ attached,
    after.host.arc? key = some attached ∧ attached.SameAttributes arc
  arcs_length : before.host.arcs.cells.length ≤ after.host.arcs.cells.length
  copies : ∃ copies, after.host.arcs.keys = before.host.arcs.keys ++ copies ∧
    after.report.addedArcs = before.report.addedArcs ++ copies ∧
    ∀ key ∈ copies, before.host.arcs.cells.length ≤ key.index
  addedNodes : after.report.addedNodes = before.report.addedNodes
  addedHyperArcs : after.report.addedHyperArcs = before.report.addedHyperArcs
  removals : before.report.SameRemovals after.report

namespace Reattaches

variable {d d' d'' : Derivation} {free : List ArcKey}

/-- Nothing is reattached. -/
theorem refl (h : d.host.WellFormed) (free : List ArcKey) : Reattaches d d free where
  wellFormed := h
  nodes := rfl
  hyperarcs := rfl
  globals := .refl _
  arc? _ _ _ := rfl
  kept _ arc harc := ⟨arc, harc, .refl arc⟩
  arcs_length := Nat.le_refl _
  copies := ⟨[], (List.append_nil _).symm, (List.append_nil _).symm, nofun⟩
  addedNodes := rfl
  addedHyperArcs := rfl
  removals := ⟨rfl, rfl, rfl⟩

/-- One reattachment after another. What is written in either step is at the free ends, and the
arcs that are added in either step are new. -/
theorem trans (h : Reattaches d d' free) (h' : Reattaches d' d'' free) : Reattaches d d'' free where
  wellFormed := h'.wellFormed
  nodes := h'.nodes.trans h.nodes
  hyperarcs := h'.hyperarcs.trans h.hyperarcs
  globals := h.globals.trans h'.globals
  arc? key hlt hfree :=
    (h'.arc? key (Nat.lt_of_lt_of_le hlt h.arcs_length) hfree).trans (h.arc? key hlt hfree)
  kept key arc harc := by
    obtain ⟨middle, hmiddle, hsame⟩ := h.kept key arc harc
    obtain ⟨attached, hattached, hsame'⟩ := h'.kept key middle hmiddle
    exact ⟨attached, hattached, hsame'.trans hsame⟩
  arcs_length := Nat.le_trans h.arcs_length h'.arcs_length
  copies := by
    obtain ⟨copies, hkeys, hadded, hnew⟩ := h.copies
    obtain ⟨copies', hkeys', hadded', hnew'⟩ := h'.copies
    refine ⟨copies ++ copies', ?_, ?_, fun key hkey => ?_⟩
    · rw [hkeys', hkeys, List.append_assoc]
    · rw [hadded', hadded, List.append_assoc]
    · rcases List.mem_append.1 hkey with hkey | hkey
      · exact hnew key hkey
      · exact Nat.le_trans h.arcs_length (hnew' key hkey)
  addedNodes := h'.addedNodes.trans h.addedNodes
  addedHyperArcs := h'.addedHyperArcs.trans h.addedHyperArcs
  removals := ⟨h'.removals.nodes.trans h.removals.nodes, h'.removals.arcs.trans h.removals.arcs,
    h'.removals.hyperarcs.trans h.removals.hyperarcs⟩

/-- Arcs that are listed as added stay listed. -/
theorem addedArcs (h : Reattaches d d' free) : d.report.addedArcs <+: d'.report.addedArcs := by
  obtain ⟨copies, -, hadded, -⟩ := h.copies
  exact ⟨copies, hadded.symm⟩

/-- No node comes or goes. -/
theorem hasNode (h : Reattaches d d' free) (key : NodeKey) :
    d'.host.hasNode key = d.host.hasNode key := by
  unfold Graph.hasNode
  rw [h.nodes]

end Reattaches

namespace Reattachment

variable {rule : GrammarRule} {images : Update.NodeImages} {d : Derivation} {free : List ArcKey}

/-! ## One end

The frame holds of each case of `Offered`, and the conditions under which an offer is not refused
are kept by it. -/

/-- **Offering one end stays at the free ends.** An end that is passed over or reported changes
no arc. One that is attached changes its own arc, and what else it brings are copies under new
keys. -/
theorem Offered.reattaches {d' : Derivation} {f : FreeEnd} {otherFreed : Bool}
    (h : Offered d f otherFreed d') (hd : d.host.WellFormed) (hf : f.arc ∈ free) :
    Reattaches d d' free := by
  cases h with
  | dead => exact .refl hd free
  | dangling => exact { Reattaches.refl hd free with removals := ⟨rfl, rfl, rfl⟩ }
  | @attached arc harc taker copies htakers =>
    have hattached : (d.host.modifyArc f.arc (attachedArc f.freed otherFreed taker)).WellFormed :=
      hd.modifyArc fun given hgiven => ⟨rfl, hasNode_of_mem_attachedArc
        (htakers taker List.mem_cons_self) (hd.ends_alive f.arc given hgiven)⟩
    -- of the arcs that were there, the one that is attached is changed
    have hold : ∀ key : ArcKey, key.index < d.host.arcs.cells.length →
        ((d.host.arcs.modify f.arc (attachedArc f.freed otherFreed taker)).pushAll
          (copies.map (attachedArc f.freed false · arc))).get? key
        = if f.arc = key then (d.host.arcs.get? key).map (attachedArc f.freed otherFreed taker)
          else d.host.arcs.get? key := fun key hlt =>
      (Registry.get?_pushAll _ ((Registry.length_cells_modify ..).symm ▸ hlt)).trans
        (Registry.get?_modify ..)
    refine { Reattaches.refl hd free with
      wellFormed := hattached.pushArcs _ fun copy hcopy => ?_
      globals := ⟨rfl, rfl, rfl⟩
      arc? := fun key hlt hfree => ?_
      kept := fun key given hgiven => ?_
      arcs_length := ?_
      copies := ⟨_, ?_, rfl, fun key hkey => (Registry.mem_nextKeys.1 hkey).1⟩
      removals := ⟨rfl, rfl, rfl⟩ }
    · obtain ⟨other, hother, rfl⟩ := List.mem_map.1 hcopy
      exact hasNode_of_mem_attachedArc (g := d.host)
        (htakers other (List.mem_cons_of_mem _ hother)) (hd.ends_alive f.arc _ harc)
    · exact (hold key hlt).trans (if_neg fun heq : f.arc = key => hfree (heq ▸ hf))
    · have hfound := hold key (Registry.lt_of_get?_eq_some hgiven)
      rw [show d.host.arcs.get? key = some given from hgiven] at hfound
      by_cases heq : f.arc = key
      · rw [if_pos heq] at hfound
        exact ⟨_, hfound, rfl, rfl⟩
      · rw [if_neg heq] at hfound
        exact ⟨given, hfound, .refl given⟩
    · rw [Registry.length_cells_pushAll, Registry.length_cells_modify]
      exact Nat.le_add_right ..
    · have hkeys := Registry.keys_pushAll
        (d.host.arcs.modify f.arc (attachedArc f.freed otherFreed taker))
        (copies.map (attachedArc f.freed false · arc))
      rwa [Registry.keys_modify, List.length_map,
        Registry.nextKeys_congr (Registry.length_cells_modify ..)] at hkeys

/-- **Offering one end succeeds and stays at the free ends.** -/
theorem reattach_succeeds (rule : GrammarRule) (hd : d.host.WellFormed)
    (hplace : ∀ m n, images.lookup m = some n → d.host.hasNode n = true) {f : FreeEnd}
    (hf : f.arc ∈ free) (doublyFreed : List ArcKey) :
    ∃ d', reattach rule images doublyFreed d f = .ok d' ∧ Reattaches d d' free := by
  obtain ⟨d', hd', hoffered⟩ := exists_offered rule hd.ends_alive hplace f doublyFreed
  exact ⟨d', hd', hoffered.reattaches hd hf⟩

/-! ## All ends

The places of the nodes of R are alive throughout, because no node is removed by a reattachment. -/

/-- **Reattaching succeeds and stays at the free ends.** -/
theorem reattachAll_succeeds (rule : GrammarRule) (hd : d.host.WellFormed)
    (hplace : ∀ m n, images.lookup m = some n → d.host.hasNode n = true) (ends : List FreeEnd) :
    ∃ d', reattachAll rule images ends d = .ok d' ∧ Reattaches d d' (ends.map (·.arc)) := by
  refine foldlM_succeeds (P := fun d' => Reattaches d d' (ends.map (·.arc)))
    (fun d' f hf h => ?_) (.refl hd _)
  obtain ⟨d'', hd'', hnext⟩ := reattach_succeeds rule h.wellFormed
    (fun m n hm => (h.hasNode n).trans (hplace m n hm)) (List.mem_map_of_mem hf)
    (doublyFreed ends)
  exact ⟨d'', hd'', h.trans hnext⟩

/-- Without embedding rules every free end stays dangling. -/
theorem reattachAll_of_no_rules (images : Update.NodeImages) (d : Derivation)
    (hrule : rule.embeddingRules = []) (ends : List FreeEnd) :
    ∃ diagnostics, reattachAll rule images ends d
      = .ok { d with report := { d.report with diagnostics } } := by
  have hadmitting : ∀ host arc f otherFreed, admitting host rule images arc f otherFreed = [] := by
    intro host arc f otherFreed
    unfold admitting
    rw [hrule]
    rfl
  have hstep : ∀ d' f, f ∈ ends →
      (∃ diagnostics, d' = { d with report := { d.report with diagnostics } }) →
      ∃ next, reattach rule images (doublyFreed ends) d' f = .ok next ∧
        ∃ diagnostics, next = { d with report := { d.report with diagnostics } } := by
    rintro d' f - ⟨diagnostics, rfl⟩
    unfold reattach
    split
    · exact ⟨_, rfl, diagnostics, rfl⟩
    · dsimp only
      rw [hadmitting]
      exact ⟨_, rfl, _, rfl⟩
  obtain ⟨d', hd', diagnostics, rfl⟩ := foldlM_succeeds hstep ⟨d.report.diagnostics, rfl⟩
  exact ⟨diagnostics, hd'⟩

end Reattachment

end GraphGrammar
