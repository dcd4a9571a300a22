import GraphGrammar.Proofs.Reconnection

/-!
# Which ends are lost, and what is said about it

An arc that is no image loses the ends that were at deleted nodes. Each of these is
free, once (`Deletion.frees_deleteAll`), and it is then attached or reported. So
such an arc has as many more dangling ends afterwards as there are diagnostics for it
(`Reattachment.danglingEnds_reattachAll`).

The image of a context arc loses the ends that R lets go of
(`GrammarRule.detachedEnds`), and those at deleted nodes that L and R name alike
(`GrammarRule.unheededEnds`): nothing is reconnected there, and nothing reported. L may
have nothing at such an end, or a node that the context leaves out.

Ends are counted and not listed, because an arc may lose both of its ends, and one of them may be
attached while the other is reported. An arc has two ends, so everything that is counted here is
a sum of two terms.
-/

namespace GraphGrammar

variable {host : Graph} {rule : GrammarRule} {o : RuleOption}

/-! ## Counting ends

The counts are over the list of the two ends, so a bound on a count is a bound at each end
(`countP_both_le`), and to compare two counts nothing has to be known about which end is which. -/

namespace ArcEnd

/-- Each end is one of the two. -/
theorem mem_both (e : ArcEnd) : e ∈ both := by cases e <;> decide

/-- The two ends are different. -/
theorem nodup_both : both.Nodup := by decide

/-- No end is opposite itself. -/
theorem opposite_ne (e : ArcEnd) : e.opposite ≠ e := by cases e <;> decide

/-- Of two different ends each is opposite the other. -/
theorem eq_opposite_of_ne {e f : ArcEnd} (h : e ≠ f) : e = f.opposite := by
  cases e <;> cases f <;> first | rfl | exact absurd rfl h

/-- A count over the ends is one term for the source and one for the target. -/
theorem countP_both (p : ArcEnd → Bool) :
    both.countP p = (p source).toNat + (p target).toNat := by
  unfold both
  cases hsource : p source <;> cases htarget : p target <;> simp [hsource, htarget]

/-- The sides may be exchanged. -/
theorem countP_both_side (turn : Bool) (p : ArcEnd → Bool) :
    both.countP (fun e => p (if turn then e.opposite else e)) = both.countP p := by
  rw [countP_both, countP_both]
  cases turn with
  | false => rfl
  | true => exact Nat.add_comm ..

/-- If an end that counts on the left counts somewhere on the right, the sum on the right is no
less. -/
theorem countP_both_le {p q r s : ArcEnd → Bool}
    (h : ∀ e, p e = true → q e = true ∨ r e = true ∨ s e = true) :
    both.countP p ≤ both.countP q + both.countP r + both.countP s := by
  have hone : ∀ e, (p e).toNat ≤ (q e).toNat + (r e).toNat + (s e).toNat := by
    intro e
    cases hp : p e with
    | false => exact Nat.zero_le _
    | true => rcases h e hp with h | h | h <;> rw [h, Bool.toNat_true] <;> omega
  have hsource := hone source
  have htarget := hone target
  simp only [countP_both]
  omega

/-- Ends that are listed once each are as many as the ends that are listed. -/
theorem length_eq_countP {ends : List ArcEnd} (h : ends.Nodup) :
    ends.length = both.countP ends.contains := by
  rw [List.countP_eq_length_filter]
  refine ((List.perm_ext_iff_of_nodup h (nodup_both.filter _)).2 fun e => ?_).length_eq
  simp [mem_both]

end ArcEnd

/-- The number of ends of an arc that dangle. -/
def Arc.danglingEnds (arc : Arc) : Nat := ArcEnd.both.countP fun e => (arc.atEnd e).isNone

/-- Whether an end of an arc is reported as dangling. -/
def Diagnostic.isFor (key : ArcKey) : Diagnostic → Bool
  | danglingEnd arc _ _ => arc == key
  | _ => false

/-- The number of dangling ends that are reported for an arc. -/
def ApplyReport.danglingEnds (report : ApplyReport) (key : ArcKey) : Nat :=
  report.diagnostics.countP (·.isFor key)

/-- A remark about a dangling end counts for its arc. -/
theorem Derivation.danglingEnds_diagnose (d : Derivation) (arc key : ArcKey) (name : Name)
    (freed : ArcEnd) : (d.diagnose (.danglingEnd arc name freed)).report.danglingEnds key
      = d.report.danglingEnds key + if arc = key then 1 else 0 := by
  refine (List.countP_append ..).trans ?_
  rw [List.countP_singleton]
  show _ + (if (arc == key) = true then 1 else 0) = _
  rw [if_congr beq_iff_eq rfl rfl]
  rfl

/-! ## Each lost end is free once

Deletion removes one node after another and notes, before each, the ends that will be left free.
An end that was noted is at no node afterwards, so it cannot be noted again. -/

/-- The ends of an arc that are free. -/
def freedEnds (free : List FreeEnd) (key : ArcKey) : List ArcEnd :=
  (free.filter (·.arc == key)).map (·.freed)

/-- A free end counts for its arc. -/
theorem freedEnds_cons (f : FreeEnd) (free : List FreeEnd) (key : ArcKey) :
    freedEnds (f :: free) key
      = if f.arc = key then f.freed :: freedEnds free key else freedEnds free key := by
  unfold freedEnds
  by_cases h : f.arc = key <;> simp [h]

/-- Free ends that are noted later come behind those noted before. -/
theorem freedEnds_append (free free' : List FreeEnd) (key : ArcKey) :
    freedEnds (free ++ free') key = freedEnds free key ++ freedEnds free' key := by
  simp [freedEnds]

/-- **The ends of an arc that were at some nodes**, each of them once. As a list without repeats
it can be counted. -/
structure Arc.Frees (arc : Arc) (nodes : List NodeKey) (ends : List ArcEnd) : Prop where
  distinct : ends.Nodup
  mem_iff : ∀ e, e ∈ ends ↔ ∃ node ∈ nodes, arc.atEnd e = some node

namespace Arc.Frees

variable {arc : Arc} {nodes : List NodeKey} {ends : List ArcEnd}

/-- Without nodes nothing is free. -/
theorem nil (arc : Arc) : arc.Frees [] [] := ⟨.nil, by simp⟩

/-- An end that is free is attached to nothing. -/
theorem atEnd_without (h : arc.Frees nodes ends) {e : ArcEnd} (he : e ∈ ends) :
    (arc.without nodes).atEnd e = none := by
  obtain ⟨node, hnode, hat⟩ := (h.mem_iff e).1 he
  rw [Arc.atEnd_without, hat]
  simp [Option.filter, hnode]

/-- One more node frees the ends that are at it still. An end is at one node at most, so it is
not freed a second time by another node; and of the ends at the new node those were let go of
before whose node came earlier in the list. -/
theorem append (h : arc.Frees nodes ends) (image : NodeKey) :
    arc.Frees (nodes ++ [image])
      (ends ++ ArcEnd.both.filter ((arc.without nodes).atEnd · == some image)) := by
  have hlater : ∀ e, e ∈ ArcEnd.both.filter ((arc.without nodes).atEnd · == some image) ↔
      arc.atEnd e = some image ∧ image ∉ nodes := by
    intro e
    rw [List.mem_filter, and_iff_right e.mem_both, beq_iff_eq, Arc.atEnd_without,
      Option.filter_eq_some_iff]
    simp
  constructor
  · refine List.nodup_append.2 ⟨h.distinct, ArcEnd.nodup_both.filter _, ?_⟩
    rintro e he _ he' rfl
    obtain ⟨node, hnode, hat⟩ := (h.mem_iff e).1 he
    obtain ⟨hat', hnew⟩ := (hlater e).1 he'
    cases hat.symm.trans hat'
    exact hnew hnode
  · intro e
    rw [List.mem_append, h.mem_iff, hlater]
    constructor
    · rintro (⟨node, hnode, hat⟩ | ⟨hat, -⟩)
      · exact ⟨node, List.mem_append_left _ hnode, hat⟩
      · exact ⟨image, List.mem_append_right _ (List.mem_singleton.2 rfl), hat⟩
    · rintro ⟨node, hnode, hat⟩
      by_cases hold : node ∈ nodes
      · exact .inl ⟨node, hold, hat⟩
      · rcases List.mem_append.1 hnode with hnode | hnode
        · exact absurd hnode hold
        · cases List.mem_singleton.1 hnode
          exact .inr ⟨hat, hold⟩

/-- What is freed dangles in addition to what dangled before. -/
theorem danglingEnds_without (h : arc.Frees nodes ends) :
    (arc.without nodes).danglingEnds = arc.danglingEnds + ends.length := by
  have hone : ∀ e, ((arc.without nodes).atEnd e).isNone.toNat
      = (arc.atEnd e).isNone.toNat + (ends.contains e).toNat := by
    intro e
    cases hat : arc.atEnd e with
    | none =>
      have hnot : ends.contains e = false := Bool.eq_false_iff.2 fun hmem => by
        obtain ⟨node, -, hat'⟩ := (h.mem_iff e).1 (List.contains_iff_mem.1 hmem)
        exact nomatch hat.symm.trans hat'
      rw [Arc.atEnd_without, hat, hnot]
      rfl
    | some node =>
      have hmem : ends.contains e = nodes.contains node := by
        rw [Bool.eq_iff_iff, List.contains_iff_mem, List.contains_iff_mem, h.mem_iff, hat]
        simp
      rw [Arc.atEnd_without, hat, hmem, Option.filter_some]
      cases nodes.contains node <;> rfl
  have hsource := hone .source
  have htarget := hone .target
  unfold Arc.danglingEnds
  rw [ArcEnd.length_eq_countP h.distinct]
  simp only [ArcEnd.countP_both]
  omega

end Arc.Frees

namespace Deletion

/-- If one element of a registry alone contributes to a list, the list is what it contributes. -/
theorem flatMap_eq_of_unique {κ : Kind} {α β : Type} {entries : List (Key κ × α)} {key : Key κ}
    {a : α} (hnodup : (entries.map Prod.fst).Nodup) (h : (key, a) ∈ entries)
    {f : Key κ × α → List β} (hf : ∀ entry ∈ entries, entry.1 ≠ key → f entry = []) :
    entries.flatMap f = f (key, a) := by
  obtain ⟨before, after, rfl⟩ := List.append_of_mem h
  rw [List.map_append, List.map_cons, List.nodup_append, List.nodup_cons] at hnodup
  obtain ⟨-, ⟨hafter, -⟩, hbefore⟩ := hnodup
  have hnone : ∀ {rest : List (Key κ × α)}, rest ⊆ before ++ (key, a) :: after →
      (∀ entry ∈ rest, entry.1 ≠ key) → rest.flatMap f = [] := fun hsub hrest =>
    List.flatMap_eq_nil_iff.2 fun entry hentry => hf entry (hsub hentry) (hrest entry hentry)
  rw [List.flatMap_append, List.flatMap_cons,
    hnone (List.subset_append_left ..) fun entry hentry =>
      hbefore _ (List.mem_map_of_mem hentry) _ List.mem_cons_self,
    hnone (fun _ hentry => List.mem_append_right _ (List.mem_cons_of_mem _ hentry))
      fun entry hentry heq => hafter (List.mem_map.2 ⟨entry, hentry, heq⟩),
    List.nil_append, List.append_nil]

/-- The ends of an arc that a node leaves free are those at the node. -/
theorem filter_freeEnds {matched : List ArcKey} {key : ArcKey} {arc : Arc}
    (hnew : key ∉ matched) (harc : host.arc? key = some arc) (lNode image : NodeKey) :
    (freeEnds host matched lNode image).filter (·.arc == key)
      = (ArcEnd.both.filter (arc.atEnd · == some image)).map (⟨key, ·, lNode⟩) := by
  unfold freeEnds
  rw [List.filter_flatMap, flatMap_eq_of_unique host.arcs.nodup_keys
    (Registry.mem_entries_iff.2 harc) fun entry _ hne => ?_]
  · dsimp only
    rw [if_neg fun hmem => hnew (List.contains_iff_mem.1 hmem)]
    exact List.filter_eq_self.2 fun f hf => by
      obtain ⟨e, -, rfl⟩ := List.mem_map.1 hf
      exact beq_self_eq_true key
  · dsimp only
    split
    · rfl
    · refine List.filter_eq_nil_iff.2 fun f hf => ?_
      obtain ⟨e, -, rfl⟩ := List.mem_map.1 hf
      simpa using hne

/-- A node leaves free the ends that an arc has at its image. -/
theorem freedEnds_freeEnds {matched : List ArcKey} {key : ArcKey} {arc : Arc}
    (hnew : key ∉ matched) (harc : host.arc? key = some arc) (lNode image : NodeKey) :
    freedEnds (freeEnds host matched lNode image) key
      = ArcEnd.both.filter (arc.atEnd · == some image) := by
  unfold freedEnds
  rw [filter_freeEnds hnew harc, List.map_map]
  exact List.map_id _

/-- Going through nodes frees the ends that are at them. -/
theorem frees_foldl_deleteNode {matched : List ArcKey} {key : ArcKey} {arc : Arc}
    (hnew : key ∉ matched) (images : List (NodeKey × NodeKey)) :
    ∀ {d : Derivation} {nodes : List NodeKey} {free : List FreeEnd}, d.host.WellFormed →
      d.host.arc? key = some (arc.without nodes) → arc.Frees nodes (freedEnds free key) →
      arc.Frees (nodes ++ images.map Prod.snd)
        (freedEnds (images.foldl (deleteNode matched) (d, free)).2 key) := by
  induction images with
  | nil =>
    intro d nodes free _ _ h
    simpa using h
  | cons image rest ih =>
    intro d nodes free hd harc h
    have hone := Deletes.removeNode hd image.2
    rw [List.map_cons, List.append_cons]
    refine ih hone.wellFormed ?_ ?_
    · rw [hone.arc?, harc]
      exact congrArg some (Arc.without_append ..).symm
    · rw [freedEnds_append, freedEnds_freeEnds hnew harc]
      exact h.append image.2

/-- Arcs that are no images are still there when nodes are deleted. -/
theorem arc?_beforeNodes {d : Derivation} (hd : d.host.WellFormed) {key : ArcKey} {arc : Arc}
    (hnew : key ∉ o.arcImages) (harc : d.host.arc? key = some arc) :
    (deleteHyperArcs rule o (deleteArcs rule o d)).host.arc? key = some (arc.without []) := by
  have hkept : key ∉ rule.goneArcs o.toAssignment := by
    intro hgone
    obtain ⟨lKey, -, -, himage⟩ := Correspondence.mem_gone.1 hgone
    exact hnew (Assignment.mem_arcImages.2 ⟨lKey, himage⟩)
  rw [(deletes_beforeNodes rule o hd).arc?, if_neg hkept, harc]
  rfl

/-- **Deletion frees the ends at the images of nodes outside the context**, of every
arc that is no image. -/
theorem frees_deleteAll {d : Derivation} (hd : d.host.WellFormed) {key : ArcKey} {arc : Arc}
    (hnew : key ∉ o.arcImages) (harc : d.host.arc? key = some arc) :
    arc.Frees (rule.goneNodes o.toAssignment) (freedEnds (deleteAll rule o d).2 key) := by
  have hnone : arc.Frees [] (freedEnds [] key) := .nil arc
  have hall := frees_foldl_deleteNode hnew (rule.goneImages o.toAssignment)
    (deletes_beforeNodes rule o hd).wellFormed (arc?_beforeNodes hd hnew harc) hnone
  rwa [List.nil_append, rule.map_snd_goneImages] at hall

end Deletion

/-! ## Each free end is attached or reported

An offer to the embedding rules has two outcomes. The free end is attached, and there is one
dangling end less; or it is not, and there is one diagnostic more. The sum of the two is what
stays the same. -/

namespace Reattachment

/-- An arc with a free end attached is at the node of R and at its other end. -/
theorem attachedEnds_eq_or (e : EmbeddingRule) (arc : Arc) (freed : ArcEnd) (otherFreed : Bool)
    (target : NodeKey) :
    attachedEnds e arc freed otherFreed target = (some target, arc.atEnd freed.opposite) ∨
      attachedEnds e arc freed otherFreed target = (arc.atEnd freed.opposite, some target) := by
  unfold attachedEnds
  cases otherFreed with
  | true =>
    cases freed with
    | source => exact .inl rfl
    | target => exact .inr rfl
  | false =>
    rw [if_neg Bool.false_ne_true]
    dsimp only
    split
    · exact .inr rfl
    · exact .inr rfl
    · exact .inl rfl
    · exact .inl rfl

/-- An end that is attached dangles no longer, and that is all that is gained. -/
theorem danglingEnds_attachedArc {arc : Arc} {freed : ArcEnd} (hfree : arc.atEnd freed = none)
    (otherFreed : Bool) (taker : EmbeddingRule × NodeKey) :
    (attachedArc freed otherFreed taker arc).danglingEnds + 1 = arc.danglingEnds := by
  have hbefore : arc.danglingEnds = (arc.atEnd freed.opposite).isNone.toNat + 1 := by
    unfold Arc.danglingEnds
    rw [ArcEnd.countP_both]
    cases freed with
    | source =>
      rw [hfree]
      exact Nat.add_comm ..
    | target =>
      rw [hfree]
      rfl
  have hafter : (attachedArc freed otherFreed taker arc).danglingEnds
      = (arc.atEnd freed.opposite).isNone.toNat := by
    refine (ArcEnd.countP_both _).trans ?_
    show (attachedEnds ..).1.isNone.toNat + (attachedEnds ..).2.isNone.toNat = _
    rcases attachedEnds_eq_or taker.1 arc freed otherFreed taker.2 with heq | heq
    · rw [heq]
      exact Nat.zero_add _
    · rw [heq]
      rfl
  rw [hafter, hbefore]

/-- The other end of an arc that lost both is left alone. -/
theorem atEnd_attachedArc_of_ne {arc : Arc} {freed e : ArcEnd} (hne : e ≠ freed)
    (taker : EmbeddingRule × NodeKey) :
    (attachedArc freed true taker arc).atEnd e = arc.atEnd e := by
  cases freed <;> cases e <;> first | rfl | exact absurd rfl hne

/-- **What is known of the ends of an arc that are still to be offered.** They dangle, none is
listed twice, and there is one of them at most unless the arc is told to have lost both. -/
structure Pending (otherFreed : Bool) (arc : Arc) (ends : List ArcEnd) : Prop where
  distinct : ends.Nodup
  dangling : ∀ e ∈ ends, arc.atEnd e = none
  single : otherFreed = false → ends.length ≤ 1

variable {images : Update.NodeImages} {d d' done : Derivation} {f : FreeEnd} {key : ArcKey}
  {arc : Arc} {otherFreed : Bool} {ends : List ArcEnd}

/-- An offer to one arc leaves the others alone. -/
theorem Offered.of_ne (h : Offered d f otherFreed d') (hne : f.arc ≠ key)
    (harc : d.host.arc? key = some arc) :
    d'.host.arc? key = some arc ∧ d'.report.danglingEnds key = d.report.danglingEnds key := by
  cases h with
  | dead => exact ⟨harc, rfl⟩
  | dangling =>
    refine ⟨harc, (Derivation.danglingEnds_diagnose ..).trans ?_⟩
    rw [if_neg hne, Nat.add_zero]
  | attached =>
    refine ⟨?_, rfl⟩
    have hlt := Registry.lt_of_get?_eq_some harc
    refine (Registry.get?_pushAll _ ?_).trans (((Registry.get?_modify ..).trans
      (if_neg hne)).trans harc)
    rwa [Registry.length_cells_modify]

/-- An offer to an arc either attaches one end or reports it. Either way the sum of the ends that
dangle and are not reported goes down by one. `Pending` is what makes the second offer to an arc
come out right: the ends still to be offered dangle, and an arc that is not doubly freed has no
second one. -/
theorem Offered.step (h : Offered d f otherFreed d') (harc : d.host.arc? f.arc = some arc)
    (hpending : Pending otherFreed arc (f.freed :: ends)) :
    ∃ arc', d'.host.arc? f.arc = some arc' ∧ Pending otherFreed arc' ends ∧
      arc'.danglingEnds + d.report.danglingEnds f.arc + 1
        = arc.danglingEnds + d'.report.danglingEnds f.arc := by
  obtain ⟨hnew, hdistinct⟩ := List.nodup_cons.1 hpending.distinct
  have hrest : ∀ e ∈ ends, arc.atEnd e = none := fun e he =>
    hpending.dangling e (List.mem_cons_of_mem _ he)
  have hsingle : otherFreed = false → ends.length ≤ 1 := fun hone =>
    Nat.le_of_succ_le (hpending.single hone)
  cases h with
  | dead hdead => exact nomatch hdead.symm.trans harc
  | dangling =>
    refine ⟨arc, harc, ⟨hdistinct, hrest, hsingle⟩, ?_⟩
    rw [Derivation.danglingEnds_diagnose, if_pos rfl, Nat.add_assoc]
  | attached harc' taker =>
    cases harc.symm.trans harc'
    refine ⟨attachedArc f.freed otherFreed taker arc, ?_, ⟨hdistinct, fun e he => ?_, hsingle⟩, ?_⟩
    · have hlt := Registry.lt_of_get?_eq_some harc
      refine (Registry.get?_pushAll _ ?_).trans ((Registry.get?_modify ..).trans ?_)
      · rwa [Registry.length_cells_modify]
      · rw [if_pos rfl]
        exact congrArg (Option.map _) harc
    · cases hother : otherFreed with
      | true =>
        have hne : e ≠ f.freed := fun heq => hnew (heq ▸ he)
        exact (atEnd_attachedArc_of_ne hne taker).trans (hrest e he)
      | false =>
        -- an arc that lost one end has no other end to be offered
        have hlength := hpending.single hother
        rw [List.length_cons] at hlength
        have hnone : ends = [] := List.length_eq_zero_iff.1 (by omega)
        rw [hnone] at he
        exact nomatch he
    · have hcount := danglingEnds_attachedArc (hpending.dangling _ List.mem_cons_self) otherFreed
        taker
      show _ + d.report.danglingEnds f.arc + 1 = _ + d.report.danglingEnds f.arc
      omega

/-- **The free ends of an arc are attached or reported**, one by one. The induction is on the
free ends that are left, those of other arcs among them. -/
theorem danglingEnds_foldlM_reattach (doublyFreed : List ArcKey) (free : List FreeEnd) :
    ∀ {d : Derivation} {arc : Arc}, d.host.EndsAlive →
      (∀ m n, images.lookup m = some n → d.host.hasNode n = true) →
      d.host.arc? key = some arc → Pending (doublyFreed.contains key) arc (freedEnds free key) →
      free.foldlM (reattach rule images doublyFreed) d = .ok done →
      ∃ after, done.host.arc? key = some after ∧
        after.danglingEnds + d.report.danglingEnds key + (freedEnds free key).length
          = arc.danglingEnds + done.report.danglingEnds key := by
  induction free with
  | nil =>
    intro d arc _ _ harc _ hok
    cases hok
    exact ⟨arc, harc, rfl⟩
  | cons f rest ih =>
    intro d arc hends hplace harc hpending hok
    obtain ⟨d', hreattach, hoffered⟩ := exists_offered rule hends hplace f doublyFreed
    rw [List.foldlM_cons, hreattach] at hok
    have hplace' : ∀ m n, images.lookup m = some n → d'.host.hasNode n = true := fun m n hm =>
      (hoffered.hasNode n).trans (hplace m n hm)
    rw [freedEnds_cons] at hpending ⊢
    split at hpending
    · rename_i heq
      subst heq
      obtain ⟨arc', harc', hpending', hstep⟩ := hoffered.step harc hpending
      obtain ⟨after, hafter, hcount⟩ := ih (hoffered.endsAlive hends) hplace' harc' hpending' hok
      refine ⟨after, hafter, ?_⟩
      rw [if_pos rfl, List.length_cons]
      omega
    · rename_i hne
      obtain ⟨harc', hreport⟩ := hoffered.of_ne hne harc
      obtain ⟨after, hafter, hcount⟩ := ih (hoffered.endsAlive hends) hplace' harc' hpending hok
      exact ⟨after, hafter, by rw [if_neg hne, ← hreport, hcount]⟩

/-- The arcs that are told to have lost both ends are those with more than one free end. -/
theorem contains_doublyFreed (ends : List FreeEnd) (key : ArcKey) :
    (doublyFreed ends).contains key = decide (1 < (ends.filter (·.arc == key)).length) := by
  rw [Bool.eq_iff_iff, List.contains_iff_mem, decide_eq_true_iff, ← List.countP_eq_length_filter]
  unfold doublyFreed
  constructor
  · intro hmem
    obtain ⟨f, hf, rfl⟩ := List.mem_map.1 hmem
    exact of_decide_eq_true (List.mem_filter.1 hf).2
  · intro hcount
    obtain ⟨f, hf, hkey⟩ := List.countP_pos_iff.1 (Nat.lt_of_succ_lt hcount)
    have hkey : f.arc = key := eq_of_beq hkey
    exact List.mem_map.2 ⟨f, List.mem_filter.2
      ⟨hf, by rw [hkey]; exact decide_eq_true hcount⟩, hkey⟩

/-- An arc that is not told to have lost both ends lost one at most. -/
theorem length_freedEnds_le_one {free : List FreeEnd}
    (h : (doublyFreed free).contains key = false) : (freedEnds free key).length ≤ 1 := by
  rw [contains_doublyFreed, decide_eq_false_iff_not, Nat.not_lt] at h
  rwa [freedEnds, List.length_map]

/-- **Reattaching leaves as many more ends dangling as it reports.** -/
theorem danglingEnds_reattachAll {free : List FreeEnd} {nodes : List NodeKey}
    (hd : d.host.WellFormed)
    (hplace : ∀ m n, images.lookup m = some n → d.host.hasNode n = true)
    (harc : d.host.arc? key = some (arc.without nodes))
    (hfrees : arc.Frees nodes (freedEnds free key))
    (hok : reattachAll rule images free d = .ok done) :
    ∃ after, done.host.arc? key = some after ∧
      after.danglingEnds + d.report.danglingEnds key
        = arc.danglingEnds + done.report.danglingEnds key := by
  obtain ⟨after, hafter, hcount⟩ := danglingEnds_foldlM_reattach _ free hd.ends_alive hplace harc
    ⟨hfrees.distinct, fun _ => hfrees.atEnd_without, length_freedEnds_le_one⟩ hok
  rw [hfrees.danglingEnds_without] at hcount
  exact ⟨after, hafter, by omega⟩

end Reattachment

/-! ## Ends of images of context arcs

For the image of an arc that the rule keeps, there is no offer. Its ends are brought to where R
has them, as far as the names in L and R differ, and what is lost is lost for one of two reasons. -/

namespace GrammarRule

/-- The ends of context arcs with a given image that are such. -/
def imageEnds (rule : GrammarRule) (o : RuleOption) (image : ArcKey)
    (such : ArcKey × Arc × Arc → ArcEnd → Bool) : List ArcEnd :=
  (rule.arcPairs.filter fun pair => o.arc? pair.1 == some image).flatMap fun pair =>
    ArcEnd.both.filter (such pair)

/-- **The ends that the rule detaches** from an arc: it is the image of a context
arc, and the end is attached in L and dangles in R. -/
def detachedEnds (rule : GrammarRule) (o : RuleOption) (image : ArcKey) : List ArcEnd :=
  rule.imageEnds o image fun (_, before, after) e =>
    (before.atEnd e).isSome && (after.atEnd e).isNone

/-- **The ends that are not heeded**: the arc is the image of a context arc, L and R name the
same node at the end or none, and the node of the host there is deleted. It is the names that
decide whether an end is reconnected. Where they agree the end is taken to be in its place
already, which it is not if the node that was there goes. -/
def unheededEnds (host : Graph) (rule : GrammarRule) (o : RuleOption) (image : ArcKey) :
    List ArcEnd :=
  rule.imageEnds o image fun (key, before, after) e =>
    let side := if (Update.reversedArcs host rule o).contains key then e.opposite else e
    rule.l.nodeName? (before.atEnd e) == rule.r.nodeName? (after.atEnd e)
      && ((host.arc? image).bind (·.atEnd side)).any (rule.goneNodes o.toAssignment).contains

/-- An arc is the image of one context arc at most, so the ends of a pair are among those that
are listed for the image. -/
theorem countP_le_length_imageEnds {image : ArcKey} {pair : ArcKey × Arc × Arc}
    (hpair : pair ∈ rule.arcPairs) (himage : o.arc? pair.1 = some image)
    (such : ArcKey × Arc × Arc → ArcEnd → Bool) :
    ArcEnd.both.countP (such pair) ≤ (rule.imageEnds o image such).length := by
  have hmem : pair ∈ rule.arcPairs.filter fun pair => o.arc? pair.1 == some image :=
    List.mem_filter.2 ⟨hpair, beq_iff_eq.2 himage⟩
  unfold imageEnds
  rw [List.countP_eq_length_filter, List.flatMap_def]
  refine List.Sublist.length_le (List.sublist_flatten_of_mem ?_)
  exact List.mem_map.2 ⟨pair, hmem, rfl⟩

end GrammarRule

/-- **Why an end dangles that was brought to R.** It was dangling, or L has a node there
and R has none, or L and R name it alike and the node that was there is gone. -/
theorem Update.lost_of_atEnd_broughtArc {place : NodeKey → Option NodeKey}
    {before after given : Arc} {gone : List NodeKey} (backToFront : Bool) {e : ArcEnd}
    (hplace : ∀ m, after.atEnd e = some m → ∃ n, place m = some n)
    (hlost : (broughtArc rule place before after backToFront (given.without gone)).atEnd
      (if backToFront && !after.isOriented then e.opposite else e) = none) :
    let side := if backToFront then e.opposite else e
    (given.atEnd side).isNone = true ∨
      ((before.atEnd e).isSome && (after.atEnd e).isNone) = true ∨
        (rule.l.nodeName? (before.atEnd e) == rule.r.nodeName? (after.atEnd e)
          && (given.atEnd side).any gone.contains) = true := by
  intro side
  rw [atEnd_broughtArc] at hlost
  split at hlost
  -- an end that is named alike was left where it was, so it dangled or its node is gone
  · rename_i hname
    rw [Arc.atEnd_without] at hlost
    cases hat : given.atEnd side with
    | none => exact .inl rfl
    | some node =>
      have hgone : gone.contains node = true := by
        by_contra hkept
        rw [hat, Option.filter_some, if_pos (by simpa using hkept)] at hlost
        exact nomatch hlost
      exact .inr (.inr (Bool.and_eq_true_iff.2 ⟨beq_iff_eq.2 hname, hgone⟩))
  · rename_i hname
    have hdangles : after.atEnd e = none := by
      cases hat : after.atEnd e with
      | none => rfl
      | some m =>
        obtain ⟨n, hn⟩ := hplace m hat
        rw [hat, Option.bind_some, hn] at hlost
        exact nomatch hlost
    have hattached : before.atEnd e ≠ none := fun hnone => hname (by rw [hnone, hdangles]; rfl)
    exact .inr (.inl (by simp [hdangles, Option.isSome_iff_ne_none, hattached]))

namespace Applied

variable {d done : Derivation} {free : List ArcKey} (h : Applied host rule o d done free)
  (hrule : rule.Coherent) (hdistinct : o.toAssignment.Distinct)
  (hmatch : rule.Matches host o.toAssignment)

include h hrule hmatch

/-- The image of an arc outside the context is gone. -/
theorem arc?_of_gone {key lKey : ArcKey} (himage : o.arc? lKey = some key)
    (hright : rule.contextArcs.right? lKey = none) : done.host.arc? key = none := by
  obtain ⟨arc, given, hl, -, hgiven, -⟩ :=
    (RuleOption.fits_of_occurs hmatch.occurs).of_arc? hrule himage
  have hlt := Registry.lt_of_get?_eq_some hgiven
  have hd : d.host.arc? key = none := by
    have hgiven : host.arcs.get? key = some given := hgiven
    refine (h.replaced.arcs.old key hlt).trans ?_
    rw [hgiven]
    exact Registry.fate_gone (Registry.mem_keys_iff.2 (Registry.contains_iff.2 ⟨arc, hl⟩)) hright
      himage _
  have hlength := h.replaced.arcs.length
  exact (h.reattaches.arc? key (by omega) fun hfree =>
    (h.free_old key hfree).1 (Assignment.mem_arcImages.2 ⟨lKey, himage⟩)).trans hd

include hdistinct

/-- **The image of an arc of L loses the ends that the rule detaches and those that are not
heeded**, if it is not deleted. Nothing is offered for it and nothing reported, so its ends are
compared one by one with the ends of the arcs of L and R that they stand for. -/
theorem danglingEnds_image {key lKey : ArcKey} (himage : o.arc? lKey = some key)
    {given after : Arc} (hgiven : host.arc? key = some given)
    (hafter : done.host.arc? key = some after) :
    after.danglingEnds ≤ given.danglingEnds + (rule.detachedEnds o key).length
      + (rule.unheededEnds host o key).length := by
  obtain ⟨rKey, hright⟩ : ∃ rKey, rule.contextArcs.right? lKey = some rKey :=
    Option.ne_none_iff_exists'.1 fun hnone =>
      nomatch hafter.symm.trans (h.arc?_of_gone hrule hmatch himage hnone)
  obtain ⟨before, counterpart, hbefore, hcounterpart, -⟩ := hrule.arc_pairs.exists_elements
    hrule.l_wellFormed.arcs_indexed hrule.r_wellFormed.arcs_indexed hright
  obtain ⟨_, _, himage', hgiven', -, hbrought⟩ :=
    h.exists_broughtArc hrule hdistinct hmatch hbefore hright hcounterpart
  cases himage.symm.trans himage'
  cases hgiven.symm.trans hgiven'
  cases hafter.symm.trans hbrought
  have hpair : (lKey, before, counterpart) ∈ rule.arcPairs :=
    mem_pairsOf.2 ⟨hbefore, rKey, hright, hcounterpart⟩
  refine Nat.le_trans ?_ (Nat.add_le_add (Nat.add_le_add_left
    (GrammarRule.countP_le_length_imageEnds hpair himage _) _)
    (GrammarRule.countP_le_length_imageEnds hpair himage _))
  -- the ends are counted by the ends of the arcs of L and R they are for
  unfold Arc.danglingEnds
  rw [← ArcEnd.countP_both_side
      ((Update.reversedArcs host rule o).contains lKey && !counterpart.isOriented),
    ← ArcEnd.countP_both_side ((Update.reversedArcs host rule o).contains lKey)
      fun e => (given.atEnd e).isNone]
  refine ArcEnd.countP_both_le fun e hlost => ?_
  have hplace : ∀ m, counterpart.atEnd e = some m →
      ∃ n, rule.placeAt host o.toAssignment m = some n := fun m hat =>
    h.exists_placeAt hrule (RuleOption.fits_of_occurs hmatch.occurs)
      (hrule.r_wellFormed.ends_alive rKey counterpart hcounterpart m
        (Arc.mem_ends_iff_atEnd.2 ⟨e, hat⟩))
  rw [hgiven]
  exact Update.lost_of_atEnd_broughtArc _ hplace (Option.isNone_iff_eq_none.1 hlost)

end Applied

/-- **An arc that is no image has as many more dangling ends as are reported**, at
most. -/
theorem danglingEnds_unmatched (hhost : host.WellFormed) (hrule : rule.Coherent)
    (hdistinct : o.toAssignment.Distinct) (hfits : o.Fits host rule) {key : ArcKey} {given : Arc}
    (hnew : key ∉ o.arcImages) (hgiven : host.arc? key = some given) :
    ∃ report after, (apply host rule o).result = .ok report ∧
      (apply host rule o).host.arc? key = some after ∧
      after.danglingEnds ≤ given.danglingEnds + report.danglingEnds key := by
  obtain ⟨d, images, hreplaced, hcarry, hplace⟩ := carryOut_eq hhost hrule hdistinct hfits
  obtain ⟨done, hdone, -⟩ := Reattachment.reattachAll_succeeds rule hreplaced.wellFormed hplace
    (Deletion.deleteAll rule o { host }).2
  rw [apply_of_carryOut hrule hfits (hcarry.trans hdone)]
  have harc : d.host.arc? key = some (given.without (rule.goneNodes o.toAssignment)) :=
    hreplaced.arcs.get?_of_fate hgiven (GrammarRule.arcFate_other hnew given)
  obtain ⟨after, hafter, hcount⟩ := Reattachment.danglingEnds_reattachAll hreplaced.wellFormed
    hplace harc (Deletion.frees_deleteAll hhost hnew hgiven) hdone
  exact ⟨done.report, after, rfl, hafter, by omega⟩

/-- **An application accounts for the ends that are lost.** For a rule that was built, every
option that is recognized can be applied. The dangling ends of an arc of the host that is still
there afterwards grow by what is reported for it, what the rule detaches, and what is not heeded,
at most.

The last summand is what keeps the report from being complete: these are the ends about which
nothing is said. Of an arc that is no image there are none, so for those arcs every end that is
lost is reported. -/
theorem apply_accounts_for_ends {limits : Limits} (hhost : host.WellFormed) (hrule : rule.Built)
    (ho : o ∈ (recognize host rule limits).options) :
    ∃ report, (apply host rule o).result = .ok report ∧
      ∀ key given after, host.arc? key = some given →
        (apply host rule o).host.arc? key = some after →
        after.danglingEnds ≤ given.danglingEnds + report.danglingEnds key
          + (rule.detachedEnds o key).length + (rule.unheededEnds host o key).length := by
  have hcoherent := hrule.coherent
  obtain ⟨hmatch, -⟩ := matches_of_mem_options hhost hcoherent ho
  have hdistinct := hmatch.occurs.distinct
  have hfits := RuleOption.fits_of_occurs hmatch.occurs
  obtain ⟨d, done, free, happly, h⟩ := apply_of_fits hhost hcoherent hdistinct hfits
  rw [happly]
  refine ⟨done.report, rfl, fun key given after hgiven hafter => ?_⟩
  by_cases himage : key ∈ o.arcImages
  · obtain ⟨lKey, himage⟩ := Assignment.mem_arcImages.1 himage
    have hcount := h.danglingEnds_image hcoherent hdistinct hmatch himage hgiven hafter
    omega
  · obtain ⟨report, after', hreport, hafter', hcount⟩ :=
      danglingEnds_unmatched hhost hcoherent hdistinct hfits himage hgiven
    rw [happly] at hreport hafter'
    cases hreport
    cases hafter.symm.trans hafter'
    omega

/-- Two nodes and two arcs from the first to the second. -/
def Graph.doubleEdge : Graph where
  nodes := .ofElements [{ name := "a" }, { name := "b" }]
  arcs := .ofElements
    [{ name := "e", source := some ⟨0⟩, target := some ⟨1⟩, directed := true },
      { name := "f", source := some ⟨0⟩, target := some ⟨1⟩, directed := true }]

/-- A node with an arc that goes nowhere. -/
def Graph.stub : Graph where
  nodes := .ofElements [{ name := "a" }]
  arcs := .ofElements [{ name := "e", source := some ⟨0⟩, directed := true }]

/-- The rule that keeps a node with an arc that begins there, and removes another
node. -/
def GrammarRule.dropNode : GrammarRule where
  name := "drop node"
  l := { Graph.stub with nodes := .ofElements [{ name := "a" }, { name := "b" }] }
  k := .stub
  r := .stub
  nodeConditions := [{}, {}]
  arcConditions := [{}]
  hyperarcConditions := []
  contextNodes := Correspondence.empty.insert ⟨0⟩ ⟨0⟩
  contextArcs := Correspondence.empty.insert ⟨0⟩ ⟨0⟩
  contextHyperArcs := .empty

/-- The ends of both arcs are there. -/
theorem Graph.doubleEdge_wellFormed : Graph.doubleEdge.WellFormed :=
  Graph.wellFormed_of_copy_eq rfl (Graph.membersDistinct_of_no_hyperarcs rfl)

/-- The rule passes every check of a draft. -/
theorem GrammarRule.dropNode_built : GrammarRule.dropNode.Built :=
  ⟨{ name := "drop node", l := dropNode.l, r := .stub },
    ⟨Graph.membersDistinct_of_no_hyperarcs rfl, Graph.membersDistinct_of_no_hyperarcs rfl, nofun⟩,
    rfl⟩

/-- The rule has an option in the graph with two arcs and in that with one. -/
theorem GrammarRule.length_options_dropNode :
    0 < (recognize .doubleEdge .dropNode {}).options.length ∧
      0 < (recognize (.edge true) .dropNode {}).options.length := by decide +kernel

/-- The arc that is not matched loses an end, and that is reported. The rule keeps another arc of
the same two nodes, so this one is no image. -/
theorem apply_accounts_for_ends_dropNode :
    ∃ o report given after, o ∈ (recognize .doubleEdge .dropNode {}).options ∧
      (apply .doubleEdge .dropNode o).result = .ok report ∧
      Graph.doubleEdge.arc? ⟨1⟩ = some given ∧
      (apply .doubleEdge .dropNode o).host.arc? ⟨1⟩ = some after ∧
      given.danglingEnds = 0 ∧ after.danglingEnds = 1 ∧
      after.danglingEnds ≤ report.danglingEnds ⟨1⟩ := by
  obtain ⟨o, ho, given, after, hgiven, hafter, hbefore, hlost, hdetached, hunheeded⟩ :
      ∃ o ∈ (recognize .doubleEdge .dropNode {}).options, ∃ given after,
        Graph.doubleEdge.arc? ⟨1⟩ = some given ∧
        (apply .doubleEdge .dropNode o).host.arc? ⟨1⟩ = some after ∧
        given.danglingEnds = 0 ∧ after.danglingEnds = 1 ∧
        (GrammarRule.dropNode.detachedEnds o ⟨1⟩).length = 0 ∧
        (GrammarRule.unheededEnds .doubleEdge .dropNode o ⟨1⟩).length = 0 :=
    ⟨_, List.getElem_mem GrammarRule.length_options_dropNode.1, _, _, rfl, rfl,
      by decide +kernel⟩
  obtain ⟨report, hresult, hcount⟩ := apply_accounts_for_ends Graph.doubleEdge_wellFormed
    GrammarRule.dropNode_built ho
  have hgrown := hcount ⟨1⟩ given after hgiven hafter
  exact ⟨o, report, given, after, ho, hresult, hgiven, hafter, hbefore, hlost, by omega⟩

/-- **An end that is not heeded is lost without a word.** The arc is the image of the
one that goes nowhere in L and in R. The node at its end goes, the arc dangles, and
nothing is reported; the rule detaches nothing. -/
theorem end_lost_dropNode :
    ∃ o report given after, o ∈ (recognize (.edge true) .dropNode {}).options ∧
      GrammarRule.dropNode.Built ∧ (Graph.edge true).WellFormed ∧
      (apply (.edge true) .dropNode o).result = .ok report ∧
      (Graph.edge true).arc? ⟨0⟩ = some given ∧
      (apply (.edge true) .dropNode o).host.arc? ⟨0⟩ = some after ∧
      given.danglingEnds = 0 ∧ after.danglingEnds = 1 ∧ report.danglingEnds ⟨0⟩ = 0 ∧
      GrammarRule.dropNode.detachedEnds o ⟨0⟩ = [] := by
  refine ⟨_, _, _, _, List.getElem_mem GrammarRule.length_options_dropNode.2,
    GrammarRule.dropNode_built, Graph.edge_wellFormed true, rfl, rfl, rfl, ?_⟩
  decide +kernel

end GraphGrammar
