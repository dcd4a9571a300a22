import GraphGrammar.Proofs.Search
import GraphGrammar.Recognition.Basic
import Mathlib.Data.List.ProdSigma

/-!
# Recognition is exact

A rule has an option in a host for each match of the rule and each place at
which the global labels begin, and none beside these. The first part of this
module says what the conditions on the match as a whole and on the globals of
the host come to. The second part joins it to what the search finds:
`mem_map_options_iff` for a recognition that is not limited, and
`matches_of_mem_options` for what any recognition returns, which is all that
applying a rule relies on.

Three facts come together in `recognize_exact`: the assignments that can be recorded are the
matches, without limits all of them are recorded, and the options are the recorded assignments
times the places of the global labels.
-/

namespace GraphGrammar

open Occurrence (ofRule)

variable {host : Graph} {rule : GrammarRule} {a : Assignment}

/-! ## The match as a whole

A rule may ask that its match covers all nodes of the host, or all arcs between the images. Both
are tests of the finished positive assignment. The third is that no negative element can be
added, which takes another search. -/

namespace Occurrence

/-- Distinct images that are as many as the nodes of the host are all of
them. -/
theorem isSpanning_iff (hhost : host.WellFormed) (ha : rule.OccursAt host .positive a) :
    (ofRule host rule).isSpanning a = true ↔
      ∀ key, host.hasNode key = true → key ∈ a.nodeImages := by
  have halive : a.nodeImages ⊆ host.nodes.keys := by
    intro image hmem
    obtain ⟨key, hkey⟩ := Assignment.mem_nodeImages.1 hmem
    exact Registry.mem_keys_iff.2 (hasNode_of_suits (ha.suits _ _ (Assignment.image?_node.2 hkey)))
  show (a.nodeImages.length == host.nodes.count) = true ↔ _
  rw [beq_iff_eq, hhost.nodes_indexed.count_eq]
  constructor
  · intro hlength key hkey
    have hperm := (ha.distinct.nodes.subperm halive).perm_of_length_le (Nat.le_of_eq hlength.symm)
    exact hperm.mem_iff.2 (Registry.mem_keys_iff.2 hkey)
  · intro h
    refine ((List.perm_ext_iff_of_nodup ha.distinct.nodes host.nodes.nodup_keys).2 ?_).length_eq
    exact fun key => ⟨fun hmem => halive hmem, fun hmem => h key (Registry.mem_keys_iff.1 hmem)⟩

/-- The test for an induced match: an arc of the host with both ends at images is an image
itself. The test goes over the arcs of the host and not over pairs of images, so several arcs
between two images are all asked for. -/
theorem isInduced_iff :
    (ofRule host rule).isInduced a = true ↔ ∀ key arc, host.arc? key = some arc →
      (∃ source ∈ a.nodeImages, arc.source = some source) →
      (∃ target ∈ a.nodeImages, arc.target = some target) → key ∈ a.arcImages := by
  have hany : ∀ {e : Option NodeKey}, e.any a.nodeImages.contains = true ↔
      ∃ node ∈ a.nodeImages, e = some node := by
    intro e
    rw [Option.any_eq_true]
    constructor
    · rintro ⟨node, he, hmem⟩
      exact ⟨node, List.contains_iff_mem.1 hmem, he⟩
    · rintro ⟨node, hmem, he⟩
      exact ⟨node, he, List.contains_iff_mem.2 hmem⟩
  show host.arcs.entries.all _ = true ↔ _
  rw [List.all_eq_true]
  constructor
  · intro h key arc harc hsource htarget
    have hentry := h (key, arc) (Registry.mem_entries_iff.2 harc)
    dsimp only at hentry
    rw [hany.2 hsource, hany.2 htarget, Bool.true_and, Bool.true_and, Bool.not_not] at hentry
    exact List.contains_iff_mem.1 hentry
  · rintro h ⟨key, arc⟩ hentry
    rw [Bool.not_eq_true', ← Bool.not_eq_true, Bool.and_eq_true, Bool.and_eq_true, hany, hany]
    rintro ⟨⟨hsource, htarget⟩, hnew⟩
    rw [Bool.not_eq_true', ← Bool.not_eq_true, List.contains_iff_mem] at hnew
    exact hnew (h key arc (Registry.mem_entries_iff.1 hentry) hsource htarget)

/-- There is nothing negative to look for exactly if no element of L is negative. -/
theorem isEmpty_negativePlan_iff :
    (ofRule host rule).negativePlan.isEmpty = true ↔
      ¬ ∃ e, rule.hasElement e = true ∧ rule.isNegative e = true := by
  rw [List.isEmpty_iff, List.eq_nil_iff_forall_not_mem]
  constructor
  · exact fun h ⟨e, he⟩ => h e ((mem_planOf_iff .negative).2 he)
  · exact fun h e he => h ⟨e, (mem_planOf_iff .negative).1 he⟩

/-- **An assignment of the positive elements is accepted if it is a match.** -/
theorem accepts_iff (hhost : host.WellFormed) (hrule : rule.Coherent)
    (ha : rule.OccursAt host .positive a) :
    (ofRule host rule).accepts a = true ↔ rule.Matches host a := by
  have hcompletions : ((ofRule host rule).completions .negative
      (ofRule host rule).negativePlan a).isEmpty = true ↔
        ¬ ∃ b, rule.OccursAt host .negative b ∧ a.PartOf b := by
    rw [List.isEmpty_iff, List.eq_nil_iff_forall_not_mem]
    have hmem := fun b =>
      mem_completions_iff (b := b) hhost hrule (plans_planOf .negative) (underway_negative ha)
    exact ⟨fun h ⟨b, hb⟩ => h b ((hmem b).2 hb), fun h b hb => h ⟨b, (hmem b).1 hb⟩⟩
  have hor : ∀ {p : Bool} {q : Prop}, (p = true → q) ↔ p = false ∨ q := fun {p q} => by
    rw [← Bool.not_eq_true, imp_iff_not_or]
  unfold accepts isAdmissible
  rw [Bool.and_eq_true, Bool.and_eq_true, Bool.or_eq_true, Bool.or_eq_true, Bool.or_eq_true,
    Bool.not_eq_true', Bool.not_eq_true', isSpanning_iff hhost ha, isInduced_iff,
    isEmpty_negativePlan_iff, hcompletions]
  constructor
  · rintro ⟨⟨hspanning, hinduced⟩, hforbidden⟩
    exact ⟨ha, hor.2 hspanning, hor.2 hinduced, fun h => hforbidden.resolve_left (not_not_intro h)⟩
  · intro h
    exact ⟨⟨hor.1 h.spanning, hor.1 h.induced⟩, imp_iff_not_or.1 h.forbidden⟩

/-- All assignments that the search can record. -/
def accepted (s : Occurrence) : List Assignment :=
  (s.completions .positive s.positivePlan s.unassigned).filter s.accepts

/-- **What the search can record are the matches.** Here the two phases of the search come
together. -/
theorem mem_accepted_iff (hhost : host.WellFormed) (hrule : rule.Coherent) :
    a ∈ (ofRule host rule).accepted ↔ rule.Matches host a := by
  have hunassigned : rule.Underway host .positive ((ofRule host rule).planOf .positive)
      (ofRule host rule).unassigned := underway_unassigned hrule
  have hstart : ∀ b, (ofRule host rule).unassigned.PartOf b := by
    intro b e slot he
    have hassigned := (hunassigned.assigned e).1 (Option.isSome_iff_exists.2 ⟨slot, he⟩)
    exact absurd ((mem_planOf_iff .positive).2 hassigned.1) hassigned.2
  refine (List.mem_filter.trans (and_congr_left fun _ =>
    mem_completions_iff hhost hrule (plans_planOf .positive) hunassigned)).trans ?_
  constructor
  · rintro ⟨⟨ha, -⟩, haccepts⟩
    exact (accepts_iff hhost hrule ha).1 haccepts
  · intro h
    exact ⟨⟨h.occurs, hstart a⟩, (accepts_iff hhost hrule h.occurs).2 h⟩

/-- No match is recorded twice, as no completion is reached twice. -/
theorem nodup_accepted (hhost : host.WellFormed) (hrule : rule.Coherent) :
    (ofRule host rule).accepted.Nodup :=
  (nodup_completions hhost hrule (plans_planOf .positive) (underway_unassigned hrule)).filter _

/-- What a limited search finds is the beginning of what it could find. -/
theorem run_finds (s : Occurrence) (limits : Limits) :
    Finds limits s.accepted {} (s.run limits) :=
  search_finds s limits s.positivePlan s.unassigned {} rfl

/-- Under any limits the matches that were found come first among all of them. -/
theorem found_prefix (s : Occurrence) (limits : Limits) :
    (s.run limits).found.toList <+: s.accepted := by
  obtain ⟨taken, hprefix, hfound, -⟩ := (s.run_finds limits).found
  rw [hfound]
  exact hprefix

/-- **Without limits the search finds everything and says so.** -/
theorem run_unlimited (s : Occurrence) :
    (s.run {}).found.toList = s.accepted ∧ (s.run {}).status = .complete := by
  have hfinds := s.run_finds {}
  have hstop := hfinds.unlimited rfl
  obtain ⟨taken, -, hfound, hall⟩ := hfinds.found
  refine ⟨hfound.trans (hall hstop), ?_⟩
  rw [Progress.status, hstop]
  rfl

end Occurrence

/-! ## The globals of the host

Labels that are asked for in order must run somewhere in the global labels of the host. Where
they do is part of an option, since an application puts the new labels there; a rule that does
not ask for an order has one place, which is none. -/

/-- Where a run of labels begins. -/
theorem mem_runStarts_iff {wanted given : List Label} {start : Nat} :
    start ∈ runStarts wanted given ↔ start < given.length ∧ wanted <+: given.drop start := by
  rw [runStarts, List.mem_filter, List.mem_range, List.isPrefixOf_iff_prefix]

/-- Labels that are wanted are a run of the given ones if such a run starts somewhere. -/
theorem runStarts_ne_nil_iff {wanted given : List Label} (hwanted : wanted ≠ []) :
    runStarts wanted given ≠ [] ↔ wanted <:+: given := by
  constructor
  · intro h
    obtain ⟨start, hstart⟩ := List.exists_mem_of_ne_nil _ h
    obtain ⟨-, hprefix⟩ := mem_runStarts_iff.1 hstart
    exact hprefix.isInfix.trans (List.drop_suffix start given).isInfix
  · rintro ⟨before, after, rfl⟩
    refine List.ne_nil_of_mem (mem_runStarts_iff.2 ⟨?_, ?_⟩ : before.length ∈ _)
    · rw [List.length_append, List.length_append]
      have hpos := List.length_pos_of_ne_nil hwanted
      omega
    · rw [List.append_assoc, List.drop_left]
      exact List.prefix_append wanted after

/-- Labels without repeats have a run in one place only. -/
theorem runStarts_unique {wanted given : List Label} (hwanted : wanted ≠ [])
    (hnodup : given.Nodup) {start other : Nat} (hstart : start ∈ runStarts wanted given)
    (hother : other ∈ runStarts wanted given) : start = other := by
  obtain ⟨label, rest, rfl⟩ := List.exists_cons_of_ne_nil hwanted
  have hat : ∀ {start}, start ∈ runStarts (label :: rest) given → given[start]? = some label := by
    intro start hstart
    obtain ⟨-, after, hafter⟩ := mem_runStarts_iff.1 hstart
    have hhead := congrArg List.head? hafter
    rw [List.head?_drop] at hhead
    exact hhead.symm
  have hlt : start < given.length := (mem_runStarts_iff.1 hstart).1
  exact (List.getElem?_inj hlt hnodup).1 ((hat hstart).trans (hat hother).symm)

/-- Some place is left for labels that are wanted in order if they run somewhere
in the given ones, no labels anywhere. -/
theorem starts_ne_nil_iff {wanted given : LabelSet} :
    (if wanted.isEmpty = true then [none]
      else (runStarts wanted.toList given.toList).map some) ≠ [] ↔
      wanted.toList <:+: given.toList := by
  split
  · rename_i hempty
    rw [List.isEmpty_iff.1 hempty]
    exact iff_of_true nofun List.nil_infix
  · rename_i hwanted
    rw [Ne, List.map_eq_nil_iff]
    exact runStarts_ne_nil_iff fun h => hwanted (List.isEmpty_iff.2 h)

/-- Labels that are wanted in any order are there, and if all of the given ones
are wanted, as many. -/
theorem present_iff {wanted given : LabelSet} {all : Bool} :
    (if all = true then given.sameLabels wanted else given.containsAll wanted) = true ↔
      (∀ label ∈ wanted.toList, label ∈ given.toList) ∧
      (all = true → given.size = wanted.size) := by
  cases all with
  | false =>
    rw [if_neg Bool.false_ne_true, LabelSet.containsAll_iff]
    exact (and_iff_left nofun).symm
  | true =>
    rw [if_pos rfl, LabelSet.sameLabels_iff, and_comm]
    exact and_congr_right fun _ => ⟨fun h _ => h, fun h => h rfl⟩

/-- **The places at which the global labels begin** are there exactly if the global labels are as
the rule asks. The test is a cascade. A label that must be absent settles it; then the number of
labels, if all are asked for; and then either the windows of the list or the set of its labels.
-/
theorem globalLabelStarts_ne_nil_iff :
    globalLabelStarts rule host.globalLabels ≠ [] ↔
      (∀ label ∈ rule.negateGlobalLabels.toList, label ∉ host.globalLabels.toList) ∧
      (if rule.orderedGlobalLabels then
          rule.l.globalLabels.toList <:+: host.globalLabels.toList
        else ∀ label ∈ rule.l.globalLabels.toList, label ∈ host.globalLabels.toList) ∧
      (rule.containsAllGlobalLabels = true →
        host.globalLabels.size = rule.l.globalLabels.size) := by
  unfold globalLabelStarts
  dsimp only
  -- a label that must be absent leaves no place, and else the order decides
  by_cases habsent : host.globalLabels.containsAny rule.negateGlobalLabels = true
  · rw [if_pos habsent]
    refine iff_of_false (fun h => h rfl) fun h => ?_
    exact Bool.false_ne_true ((LabelSet.containsAny_eq_false_iff.2 h.1).symm.trans habsent)
  rw [if_neg habsent, and_iff_right
    (LabelSet.containsAny_eq_false_iff.1 (Bool.eq_false_iff.2 habsent))]
  by_cases hordered : rule.orderedGlobalLabels = true
  · have hsize : ¬ (rule.containsAllGlobalLabels
        && rule.l.globalLabels.size != host.globalLabels.size) = true ↔
          (rule.containsAllGlobalLabels = true →
            host.globalLabels.size = rule.l.globalLabels.size) := by
      rw [Bool.and_eq_true, not_and, bne_iff_ne, not_not]
      exact forall_congr' fun _ => eq_comm
    rw [hordered, Bool.not_true, if_neg Bool.false_ne_true, if_pos rfl, ite_ne_left_iff, hsize,
      ne_comm, starts_ne_nil_iff]
    exact and_comm
  · rw [Bool.not_eq_true] at hordered
    rw [hordered, Bool.not_false, if_pos rfl, if_neg Bool.false_ne_true, ← present_iff]
    generalize (if rule.containsAllGlobalLabels = true
      then host.globalLabels.sameLabels rule.l.globalLabels
      else host.globalLabels.containsAll rule.l.globalLabels) = present
    cases present with
    | false => exact iff_of_false (fun h => h rfl) nofun
    | true => exact iff_of_true nofun rfl

/-- **In a host that lists no global label twice there is at most one place for the global labels
of L.** Two runs of the same labels would begin with the same label. -/
theorem globalLabelStarts_unique (hdistinct : host.globalLabels.Distinct)
    {start other : Option Nat} (hstart : start ∈ globalLabelStarts rule host.globalLabels)
    (hother : other ∈ globalLabelStarts rule host.globalLabels) : start = other := by
  -- without an order there is one place at most, which is none
  have hone : ∀ {p : Bool}, start ∈ (if p = true then [none] else []) →
      other ∈ (if p = true then [none] else []) → start = other := by
    intro p hstart hother
    cases p with
    | false => exact nomatch hstart
    | true => exact (List.mem_singleton.1 hstart).trans (List.mem_singleton.1 hother).symm
  unfold globalLabelStarts at hstart hother
  dsimp only at hstart hother
  split at hstart
  · exact nomatch hstart
  rw [if_neg ‹_›] at hother
  split at hstart
  · rw [if_pos ‹_›] at hother
    exact hone hstart hother
  rw [if_neg ‹_›] at hother
  split at hstart
  · exact nomatch hstart
  rw [if_neg ‹_›] at hother
  split at hstart
  · rw [if_pos ‹_›] at hother
    exact (List.mem_singleton.1 hstart).trans (List.mem_singleton.1 hother).symm
  · rename_i hwanted
    rw [if_neg hwanted] at hother
    obtain ⟨first, hfirst, rfl⟩ := List.mem_map.1 hstart
    obtain ⟨second, hsecond, rfl⟩ := List.mem_map.1 hother
    have hne : rule.l.globalLabels.toList ≠ [] := fun h => hwanted (List.isEmpty_iff.2 h)
    exact congrArg some (runStarts_unique hne hdistinct hfirst hsecond)

/-- A place that is told is one where the global labels of L begin. -/
theorem mem_runStarts_of_mem_globalLabelStarts {labels : LabelSet} {start : Nat}
    (h : some start ∈ globalLabelStarts rule labels) :
    start ∈ runStarts rule.l.globalLabels.toList labels.toList := by
  have hone : ∀ p : Bool, some start ∉ (if p = true then [none] else []) := by
    intro p
    cases p <;> simp
  unfold globalLabelStarts at h
  dsimp only at h
  split at h
  · exact nomatch h
  split at h
  · exact absurd h (hone _)
  split at h
  · exact nomatch h
  split at h
  · exact absurd h (hone true)
  · obtain ⟨found, hfound, heq⟩ := List.mem_map.1 h
    cases heq
    exact hfound

/-- No place is told twice. -/
theorem nodup_globalLabelStarts : (globalLabelStarts rule host.globalLabels).Nodup := by
  have hone : ∀ p : Bool, (if p = true then [(none : Option Nat)] else []).Nodup := by
    intro p
    cases p with
    | false => exact List.nodup_nil
    | true => exact List.nodup_singleton none
  unfold globalLabelStarts
  dsimp only
  split
  · exact List.nodup_nil
  split
  · exact hone _
  split
  · exact List.nodup_nil
  split
  · exact List.nodup_singleton none
  · exact (List.nodup_range.filter _).map fun _ _ => Option.some.inj

/-! ## The options

An option is told by its assignment and its place for the global labels, so what recognition
returns is compared as a list of such pairs. Its number is its position in that list, and its
placement is computed from the assignment. -/

/-- **There is one option for each assignment that was found and each place at
which the global labels begin.** -/
theorem map_optionsOf (starts : List (Option Nat)) (found : List Assignment) :
    (optionsOf host rule starts found).map (fun o => (o.toAssignment, o.globalLabelStart))
      = found ×ˢ starts := by
  unfold optionsOf numberOptions
  rw [List.map_map]
  show List.map ((fun o : RuleOption => (o.toAssignment, o.globalLabelStart)) ∘ Prod.fst) _ = _
  rw [← List.map_map, List.zipIdx_map_fst, List.map_flatMap]
  refine List.flatMap_congr fun a _ => ?_
  rw [List.map_map]
  rfl

/-- An option that was recognized, under whatever limits, is at a match. It holds of a
recognition that was cut short, too, and this is the form in which options come into the theorems
about applications. -/
theorem matches_of_mem_options (hhost : host.WellFormed) (hrule : rule.Coherent) {limits : Limits}
    {o : RuleOption} (ho : o ∈ (recognize host rule limits).options) :
    rule.Matches host o.toAssignment ∧
      o.globalLabelStart ∈ globalLabelStarts rule host.globalLabels := by
  unfold recognize at ho
  dsimp only at ho
  split at ho
  · exact nomatch ho
  split at ho
  · exact nomatch ho
  have hmem : o ∈ optionsOf host rule (globalLabelStarts rule host.globalLabels)
      ((ofRule host rule).run limits).found.toList := by
    split at ho
    · exact ho
    · exact List.mem_of_mem_take ho
  have hpair : (o.toAssignment, o.globalLabelStart) ∈
      ((ofRule host rule).run limits).found.toList ×ˢ globalLabelStarts rule host.globalLabels :=
    map_optionsOf _ _ ▸ List.mem_map_of_mem hmem
  obtain ⟨hfound, hstart⟩ := List.mem_product.1 hpair
  have haccepted := (Occurrence.found_prefix _ limits).subset hfound
  exact ⟨(Occurrence.mem_accepted_iff hhost hrule).1 haccepted, hstart⟩

/-- What a recognition without limits returns. The numbers of the options are left out, as they
follow from the list. -/
theorem map_recognize (host : Graph) (rule : GrammarRule) :
    (recognize host rule {}).status = .complete ∧
      (recognize host rule {}).options.map (fun o => (o.toAssignment, o.globalLabelStart)) =
        if rule.globalVariableConstraints.all (·.holds host.globalVariables) = true then
          (ofRule host rule).accepted ×ˢ globalLabelStarts rule host.globalLabels
        else [] := by
  obtain ⟨hfound, hstatus⟩ := (ofRule host rule).run_unlimited
  unfold recognize
  dsimp only
  split
  · rename_i hstarts
    refine ⟨rfl, ?_⟩
    rw [List.isEmpty_iff.1 hstarts, List.product_nil, ite_self]
    rfl
  · cases rule.globalVariableConstraints.all (·.holds host.globalVariables) with
    | false => exact ⟨rfl, rfl⟩
    | true =>
      refine ⟨hstatus, ?_⟩
      show (optionsOf host rule _ _).map _ = _
      rw [map_optionsOf, hfound]
      rfl

/-- The assignments of the options, read off the pairs. -/
theorem map_toAssignment_recognize (host : Graph) (rule : GrammarRule) :
    (recognize host rule {}).options.map (·.toAssignment) =
      ((recognize host rule {}).options.map fun o =>
        (o.toAssignment, o.globalLabelStart)).map Prod.fst := by
  rw [List.map_map]
  rfl

/-- **The options are at the matches**, if the globals of the host are as the
rule asks. -/
theorem mem_map_options_iff (hhost : host.WellFormed) (hrule : rule.Coherent) :
    a ∈ (recognize host rule {}).options.map (·.toAssignment) ↔
      rule.GlobalsMet host ∧ rule.Matches host a := by
  rw [map_toAssignment_recognize, (map_recognize host rule).2,
    ← Occurrence.mem_accepted_iff hhost hrule, List.mem_map]
  constructor
  · rintro ⟨⟨a, start⟩, hmem, rfl⟩
    split at hmem
    · rename_i hvalues
      obtain ⟨hmem, hstart⟩ := List.mem_product.1 hmem
      obtain ⟨habsent, hrun, hsize⟩ :=
        globalLabelStarts_ne_nil_iff.1 (List.ne_nil_of_mem hstart)
      exact ⟨⟨habsent, hrun, hsize, List.all_eq_true.1 hvalues⟩, hmem⟩
    · exact nomatch hmem
  · rintro ⟨hglobals, hmem⟩
    obtain ⟨start, hstart⟩ := List.exists_mem_of_ne_nil _
      (globalLabelStarts_ne_nil_iff.2 ⟨hglobals.absent, hglobals.labels, hglobals.size⟩)
    rw [if_pos (List.all_eq_true.2 hglobals.values)]
    exact ⟨(a, start), List.mem_product.2 ⟨hmem, hstart⟩, rfl⟩

/-- **Recognition is exact.** For a rule that was built and a well-formed host,
a recognition without limits is complete, and the assignments of its options
are the matches of the rule in the host. None is listed twice for one place at
which the global labels begin, and so none at all unless the host repeats a
global label, which a set of labels does not. -/
theorem recognize_exact (hhost : host.WellFormed) (hrule : rule.Built) :
    (recognize host rule {}).status = .complete ∧
      (∀ a, a ∈ (recognize host rule {}).options.map (·.toAssignment) ↔
        rule.GlobalsMet host ∧ rule.Matches host a) ∧
      ((recognize host rule {}).options.map fun o => (o.toAssignment, o.globalLabelStart)).Nodup ∧
      (host.globalLabels.Distinct →
        ((recognize host rule {}).options.map (·.toAssignment)).Nodup) := by
  obtain ⟨hstatus, hpairs⟩ := map_recognize host rule
  have hnodup : ((recognize host rule {}).options.map fun o =>
      (o.toAssignment, o.globalLabelStart)).Nodup := by
    rw [hpairs]
    split
    · exact (Occurrence.nodup_accepted hhost hrule.coherent).product nodup_globalLabelStarts
    · exact List.nodup_nil
  refine ⟨hstatus, fun a => mem_map_options_iff hhost hrule.coherent, hnodup, fun hlabels => ?_⟩
  rw [map_toAssignment_recognize]
  refine hnodup.map_on fun x hx y hy heq => Prod.ext heq ?_
  rw [hpairs] at hx hy
  split at hx
  · rw [if_pos ‹_›] at hy
    exact globalLabelStarts_unique hlabels (List.mem_product.1 hx).2 (List.mem_product.1 hy).2
  · exact nomatch hx

/-- Two nodes and an arc from the first to the second. -/
def Graph.edge (directed : Bool) : Graph where
  nodes := .ofElements [{ name := "a" }, { name := "b" }]
  arcs := .ofElements [{ name := "e", source := some ⟨0⟩, target := some ⟨1⟩, directed }]

/-- The rule that removes two nodes with an arc between them, whichever way it
points. -/
def GrammarRule.removeEdge : GrammarRule where
  name := "remove edge"
  l := .edge false
  k := .empty
  r := .empty
  nodeConditions := [{}, {}]
  arcConditions := [{}]
  hyperarcConditions := []
  contextNodes := .empty
  contextArcs := .empty
  contextHyperArcs := .empty

/-- The two ends of the only arc are there. -/
theorem Graph.edge_wellFormed (directed : Bool) : (Graph.edge directed).WellFormed :=
  Graph.wellFormed_of_copy_eq (by cases directed <;> rfl)
    (Graph.membersDistinct_of_no_hyperarcs rfl)

/-- The rule passes every check of a draft. -/
theorem GrammarRule.removeEdge_built : GrammarRule.removeEdge.Built :=
  ⟨{ name := "remove edge", l := .edge false },
    ⟨Graph.membersDistinct_of_no_hyperarcs rfl, Graph.membersDistinct_of_no_hyperarcs rfl, nofun⟩,
    rfl⟩

/-- The edge matches along the arc and against it, and in no other way. -/
theorem recognize_exact_removeEdge :
    (Graph.edge true).WellFormed ∧ GrammarRule.removeEdge.Built ∧
      (recognize (.edge true) .removeEdge {}).status = .complete ∧
      ∀ a : Assignment,
        a = ⟨[some ⟨0⟩, some ⟨1⟩], [some ⟨0⟩], []⟩ ∨ a = ⟨[some ⟨1⟩, some ⟨0⟩], [some ⟨0⟩], []⟩ ↔
          GrammarRule.removeEdge.GlobalsMet (.edge true) ∧
            GrammarRule.removeEdge.Matches (.edge true) a := by
  obtain ⟨hstatus, hexact, -, -⟩ :=
    recognize_exact (Graph.edge_wellFormed true) GrammarRule.removeEdge_built
  refine ⟨Graph.edge_wellFormed true, GrammarRule.removeEdge_built, hstatus, fun a => ?_⟩
  have hfound : (recognize (.edge true) .removeEdge {}).options.map (·.toAssignment)
      = [⟨[some ⟨0⟩, some ⟨1⟩], [some ⟨0⟩], []⟩, ⟨[some ⟨1⟩, some ⟨0⟩], [some ⟨0⟩], []⟩] := by
    decide +kernel
  rw [← hexact, hfound, List.mem_cons, List.mem_singleton]

end GraphGrammar
