import GraphGrammar.Proofs.Extension
import GraphGrammar.Recognition.Search
import Mathlib.Data.List.Nodup

/-!
# The search finds every completion once

`Occurrence.completions` is the search without its state: the list of all
assignments that are reached by extending an assignment along a plan. They are
the occurrences that the assignment is part of, each once
(`mem_completions_iff`, `nodup_completions`); the invariant of the induction
over the plan is `GrammarRule.Underway`.

The search itself may be cut short by its limits. What it records is always the
beginning of the list of completions that are accepted, and all of it unless
the search was stopped (`search_found`), and without limits nothing stops it
(`stop_search`).

The proof is in two steps for this reason. That all matches are found is a matter of plans and
extensions, and says nothing of steps or limits; that nothing else is recorded and nothing is
lost is a matter of the progress, and says nothing of what an extension is.
-/

namespace GraphGrammar

namespace Occurrence

/-- The assignments that extend an assignment along a plan, in the order in which they are
reached. The limits do not come into it, and neither does what the search has recorded so far. -/
def completions (s : Occurrence) (phase : Phase) : List PatternElement → Assignment →
    List Assignment
  | [], a => [a]
  | e :: rest, a => (s.extensions phase a e).flatMap (s.completions phase rest)

variable {host : Graph} {rule : GrammarRule} {phase : Phase} {a b : Assignment}
  {e : PatternElement} {plan rest : List PatternElement} {slot : Nat}

/-! ## The invariant along a plan

The invariant `GrammarRule.Underway` has the rest of the plan as an argument. It is kept by each
extension (`underway_place`), and from it the two facts about completions follow by induction on
the plan. -/

/-- What is assigned in a phase is covered by it. -/
theorem covers_of_assigns {negative : Bool} (h : phase.assigns negative = true) :
    phase.covers negative = true := by
  cases phase with
  | positive => exact h
  | negative => rfl

/-- What has not had its turn has no image yet. So the images that are given later cannot
contradict the ones that are there. -/
theorem image?_eq_none_of_pending (ha : rule.Underway host phase plan a) (he : e ∈ plan) :
    a.image? e = none := by
  rw [← Option.not_isSome_iff_eq_none, ha.assigned]
  exact fun h => h.2 he

/-- **Assigning the next element keeps the invariant.** The slot suits the element and is unused,
which is all that the invariant asks of it; and what the elements before were granted stays
granted when one more is assigned. -/
theorem underway_place (hhost : host.WellFormed) (hrule : rule.Coherent)
    (hplan : rule.Plans phase (e :: rest)) (ha : rule.Underway host phase (e :: rest) a)
    (hslot : slot ∈ (ofRule host rule).slots phase a e) :
    rule.Underway host phase rest (a.place e slot) := by
  obtain ⟨helement, hassigns⟩ := hplan.elements e List.mem_cons_self
  obtain ⟨hunused, hsuits⟩ := suits_of_mem_slots hhost hrule hplan ha hslot
  have hnew := image?_eq_none_of_pending ha List.mem_cons_self
  have hpart := Assignment.partOf_place ha.shaped helement hnew slot
  have himage := Assignment.image?_place ha.shaped helement slot
  constructor
  · exact ha.shaped.place e slot
  · intro other
    rw [himage]
    by_cases heq : e = other
    · subst heq
      rw [if_pos rfl]
      exact iff_of_true rfl
        ⟨⟨helement, covers_of_assigns hassigns⟩, (List.nodup_cons.1 hplan.nodup).1⟩
    · rw [if_neg heq, ha.assigned, List.mem_cons, not_or]
      exact and_congr_right fun _ => and_iff_right (Ne.symm heq)
  · exact ha.distinct.place ha.shaped helement hunused
  · intro other slot' hother
    rw [himage] at hother
    split at hother
    · rename_i heq
      cases heq
      cases hother
      exact hsuits.mono hpart
    · exact (ha.suits other slot' hother).mono hpart

/-- The rest of a plan is a plan, with all that comes before it assigned. -/
theorem plans_tail (h : rule.Plans phase (e :: rest)) : rule.Plans phase rest :=
  ⟨fun other hother => h.elements other (List.mem_cons_of_mem e hother),
    (List.nodup_cons.1 h.nodup).2, (List.pairwise_cons.1 h.nodes_first).2⟩

/-- The part of an occurrence with one element more is a part of it. -/
theorem place_partOf (ha : a.Shaped rule.l) (he : rule.hasElement e = true) (hab : a.PartOf b)
    (hslot : b.image? e = some slot) : (a.place e slot).PartOf b := by
  intro other slot' hother
  rw [Assignment.image?_place ha he] at hother
  split at hother
  · rename_i heq
    cases heq
    cases hother
    exact hslot
  · exact hab other slot' hother

/-- **The completions of an assignment are the occurrences it is part of.** By induction on the
plan. From left to right each step keeps the invariant, and from right to left the slot that the
occurrence gives the next element is one of those that are tried. -/
theorem mem_completions_iff (hhost : host.WellFormed) (hrule : rule.Coherent)
    (hplan : rule.Plans phase plan) (ha : rule.Underway host phase plan a) :
    b ∈ (ofRule host rule).completions phase plan a ↔
      rule.OccursAt host phase b ∧ a.PartOf b := by
  induction plan generalizing a with
  | nil =>
    have ha := GrammarRule.underway_nil_iff.1 ha
    show b ∈ [a] ↔ _
    rw [List.mem_singleton]
    constructor
    · rintro rfl
      exact ⟨ha, .refl b⟩
    · rintro ⟨hb, hab⟩
      -- both assign the same elements, so being a part is being the same
      refine Assignment.ext_image? hb.shaped ha.shaped fun e => ?_
      cases himage : a.image? e with
      | some slot => exact hab e slot himage
      | none =>
        rw [← Option.not_isSome_iff_eq_none, hb.assigned, ← ha.assigned, himage]
        exact Bool.false_ne_true
  | cons e rest ih =>
    obtain ⟨helement, hassigns⟩ := hplan.elements e List.mem_cons_self
    have hpart : ∀ slot, a.PartOf (a.place e slot) :=
      Assignment.partOf_place ha.shaped helement (image?_eq_none_of_pending ha List.mem_cons_self)
    show b ∈ List.flatMap _ _ ↔ _
    rw [extensions_eq, List.mem_flatMap]
    constructor
    · rintro ⟨_, hmem, hb⟩
      obtain ⟨slot, hslot, rfl⟩ := List.mem_map.1 hmem
      obtain ⟨hoccurs, hab⟩ :=
        (ih (plans_tail hplan) (underway_place hhost hrule hplan ha hslot)).1 hb
      exact ⟨hoccurs, (hpart slot).trans hab⟩
    · rintro ⟨hb, hab⟩
      obtain ⟨slot, hslot⟩ := Option.isSome_iff_exists.1
        ((hb.assigned e).2 ⟨helement, covers_of_assigns hassigns⟩)
      have htried := mem_slots hhost hrule hplan ha hb hab hslot
      refine ⟨a.place e slot, List.mem_map.2 ⟨slot, htried, rfl⟩, ?_⟩
      exact (ih (plans_tail hplan) (underway_place hhost hrule hplan ha htried)).2
        ⟨hb, place_partOf ha.shaped helement hab hslot⟩

/-- **No completion is reached twice**: two branches give some element
different images. -/
theorem nodup_completions (hhost : host.WellFormed) (hrule : rule.Coherent)
    (hplan : rule.Plans phase plan) (ha : rule.Underway host phase plan a) :
    ((ofRule host rule).completions phase plan a).Nodup := by
  induction plan generalizing a with
  | nil => exact List.nodup_singleton a
  | cons e rest ih =>
    obtain ⟨helement, -⟩ := hplan.elements e List.mem_cons_self
    have hnext : ∀ {slot}, slot ∈ (ofRule host rule).slots phase a e →
        rule.Underway host phase rest (a.place e slot) := underway_place hhost hrule hplan ha
    show (List.flatMap _ _).Nodup
    rw [extensions_eq, List.flatMap_map, List.nodup_flatMap]
    refine ⟨fun slot hslot => ih (plans_tail hplan) (hnext hslot), ?_⟩
    refine (nodup_slots ha).pairwise_of_forall_ne fun slot hslot slot' hslot' hne => ?_
    intro b hb hb'
    have himage : ∀ {slot}, slot ∈ (ofRule host rule).slots phase a e →
        b ∈ (ofRule host rule).completions phase rest (a.place e slot) →
        b.image? e = some slot := by
      intro slot hslot hb
      refine ((mem_completions_iff hhost hrule (plans_tail hplan) (hnext hslot)).1 hb).2 e slot ?_
      rw [Assignment.image?_place ha.shaped helement, if_pos rfl]
    exact hne (Option.some.inj ((himage hslot hb).symm.trans (himage hslot' hb')))

/-! ## The plans

Both plans are lists of nodes, arcs and hyperarcs in this order, each without repeats. Nothing
else about them matters here; in particular the order of the nodes among themselves does not,
which the recognizer chooses by degree. -/

section Plan

variable {nodes : List NodeKey} {arcs : List ArcKey} {hyperarcs : List HyperArcKey}

/-- An element is in the joint list if it is in the list of its kind. -/
theorem mem_nodesFirst :
    e ∈ nodes.map .node ++ arcs.map .arc ++ hyperarcs.map .hyperarc ↔
      match e with
      | .node key => key ∈ nodes
      | .arc key => key ∈ arcs
      | .hyperarc key => key ∈ hyperarcs := by
  cases e <;> simp

/-- **A list of nodes, of arcs and of hyperarcs is a plan**, since arcs and hyperarcs refer to
nodes only. -/
theorem plans_nodesFirst (hnodes : nodes.Nodup) (harcs : arcs.Nodup)
    (hhyperarcs : hyperarcs.Nodup)
    (helements : ∀ e ∈ nodes.map .node ++ arcs.map .arc ++ hyperarcs.map .hyperarc,
      rule.hasElement e = true ∧ phase.assigns (rule.isNegative e) = true) :
    rule.Plans phase (nodes.map .node ++ arcs.map .arc ++ hyperarcs.map .hyperarc) := by
  refine ⟨helements, ?_, ?_⟩
  · rw [List.nodup_append, List.nodup_append]
    refine ⟨⟨hnodes.map fun _ _ => PatternElement.node.inj,
      harcs.map fun _ _ => PatternElement.arc.inj, ?_⟩,
      hhyperarcs.map fun _ _ => PatternElement.hyperarc.inj, ?_⟩
    · intro e he other hother heq
      obtain ⟨key, -, rfl⟩ := List.mem_map.1 he
      obtain ⟨key', -, rfl⟩ := List.mem_map.1 hother
      exact nomatch heq
    · intro e he other hother heq
      obtain ⟨key', -, rfl⟩ := List.mem_map.1 hother
      subst heq
      rcases List.mem_append.1 he with he | he
      · obtain ⟨key, -, heq⟩ := List.mem_map.1 he
        exact nomatch heq
      · obtain ⟨key, -, heq⟩ := List.mem_map.1 he
        exact nomatch heq
  -- a list without nodes is in order whatever comes first
  · have hkind : ∀ {l : List PatternElement} {κ : Kind}, κ ≠ .node → (∀ e ∈ l, e.kind = κ) →
        l.Pairwise fun e other => other.kind = .node → e.kind = .node := fun hκ h =>
      List.pairwise_of_forall_mem_list fun e _ other hother hnode =>
        absurd ((h other hother).symm.trans hnode) hκ
    rw [List.pairwise_append, List.pairwise_append]
    refine ⟨⟨?_, ?_, ?_⟩, ?_, ?_⟩
    · refine List.pairwise_of_forall_mem_list fun e he _ _ _ => ?_
      obtain ⟨key, -, rfl⟩ := List.mem_map.1 he
      rfl
    · refine hkind (fun h : Kind.arc = .node => nomatch h) fun e he => ?_
      obtain ⟨key, -, rfl⟩ := List.mem_map.1 he
      rfl
    · intro e he _ _ _
      obtain ⟨key, -, rfl⟩ := List.mem_map.1 he
      rfl
    · refine hkind (fun h : Kind.hyperarc = .node => nomatch h) fun e he => ?_
      obtain ⟨key, -, rfl⟩ := List.mem_map.1 he
      rfl
    · intro e _ other hother hnode
      obtain ⟨key, -, rfl⟩ := List.mem_map.1 hother
      exact nomatch hnode

end Plan

/-- The plan of a phase. -/
def planOf (s : Occurrence) : Phase → List PatternElement
  | .positive => s.positivePlan
  | .negative => s.negativePlan

/-- The plan of a phase has the elements of L that the phase assigns. -/
theorem mem_planOf_iff (phase : Phase) :
    e ∈ (ofRule host rule).planOf phase ↔
      rule.hasElement e = true ∧ phase.assigns (rule.isNegative e) = true := by
  have hfilter : ∀ {κ : Kind} {α : Type} {r : Registry κ α} {p : Key κ → Bool} {key : Key κ},
      key ∈ r.keys.filter p ↔ r.contains key = true ∧ p key = true := by
    intro κ α r p key
    rw [List.mem_filter, Registry.mem_keys_iff]
  cases phase with
  | positive =>
    refine mem_nodesFirst.trans ?_
    cases e with
    | node key => exact (perm_sortBy _ _).mem_iff.trans hfilter
    | arc key => exact hfilter
    | hyperarc key => exact hfilter
  | negative =>
    refine mem_nodesFirst.trans ?_
    cases e with
    | node key => exact hfilter
    | arc key => exact hfilter
    | hyperarc key => exact hfilter

/-- The plan of a phase is a plan. -/
theorem plans_planOf (phase : Phase) : rule.Plans phase ((ofRule host rule).planOf phase) := by
  have hnodup : ∀ {κ : Kind} {α : Type} (r : Registry κ α) (p : Key κ → Bool),
      (r.keys.filter p).Nodup := fun r p => r.nodup_keys.filter p
  have helements : ∀ e ∈ (ofRule host rule).planOf phase, rule.hasElement e = true ∧
      phase.assigns (rule.isNegative e) = true := fun e => (mem_planOf_iff phase).1
  cases phase with
  | positive =>
    exact plans_nodesFirst ((perm_sortBy _ _).nodup_iff.2 (hnodup _ _)) (hnodup _ _) (hnodup _ _)
      helements
  | negative => exact plans_nodesFirst (hnodup _ _) (hnodup _ _) (hnodup _ _) helements

/-- Nothing is assigned at the start. The plan has every element that is to be assigned, and the
assignment has none. -/
theorem underway_unassigned (hrule : rule.Coherent) :
    rule.Underway host .positive ((ofRule host rule).planOf .positive)
      (ofRule host rule).unassigned := by
  have himage : ∀ e, (ofRule host rule).unassigned.image? e = none := by
    have hplace : ∀ {κ : Kind} (n i : Nat),
        (((List.replicate n (none : Option (Key κ)))[i]?).join).map Key.index = none := by
      intro κ n i
      rw [List.getElem?_replicate]
      split <;> rfl
    intro e
    cases e with
    | node key => exact hplace _ _
    | arc key => exact hplace _ _
    | hyperarc key => exact hplace _ _
  have hshaped : (ofRule host rule).unassigned.Shaped rule.l :=
    ⟨List.length_replicate.trans (hrule.l_compact.nodes.count_eq hrule.l_wellFormed.nodes_indexed),
      List.length_replicate.trans (hrule.l_compact.arcs.count_eq hrule.l_wellFormed.arcs_indexed),
      List.length_replicate.trans
        (hrule.l_compact.hyperarcs.count_eq hrule.l_wellFormed.hyperarcs_indexed)⟩
  refine ⟨hshaped, fun e => ?_, Assignment.distinct_iff.2 fun e other slot _ he => ?_,
    fun e slot he => ?_⟩
  · rw [himage, mem_planOf_iff .positive]
    exact iff_of_false Bool.false_ne_true fun h => h.2 h.1
  · exact nomatch (himage e).symm.trans he
  · exact nomatch (himage e).symm.trans he

/-- An occurrence of the positive elements is where looking for the negative
ones starts. -/
theorem underway_negative (ha : rule.OccursAt host .positive a) :
    rule.Underway host .negative ((ofRule host rule).planOf .negative) a := by
  refine ⟨ha.shaped, fun e => ?_, ha.distinct, ha.suits⟩
  rw [ha.assigned, mem_planOf_iff .negative]
  show _ ∧ (!rule.isNegative e) = true ↔ (_ ∧ true = true) ∧ ¬(_ ∧ rule.isNegative e = true)
  rw [Bool.not_eq_true', ← Bool.not_eq_true]
  exact ⟨fun ⟨h, hpositive⟩ => ⟨⟨h, rfl⟩, fun hneg => hpositive hneg.2⟩,
    fun ⟨⟨h, _⟩, hneg⟩ => ⟨h, fun hnegative => hneg ⟨h, hnegative⟩⟩⟩

/-! ## What the search records

A search is a function from a progress to a progress, and it is described by the list of
assignments that it would record if nothing stopped it. `Finds` is that description. It is closed
under doing one search after another (`Finds.append`), and therefore under a loop over branches. -/

section Search

variable {s : Occurrence} {limits : Limits} {p q r : Progress} {xs ys : List Assignment}

/-- Whether an assignment of all positive elements is a match. -/
def accepts (s : Occurrence) (a : Assignment) : Bool :=
  s.isAdmissible a &&
    (s.negativePlan.isEmpty || (s.completions .negative s.negativePlan a).isEmpty)

/-- A search that is not stopped has no reason to be. -/
theorem stopped_eq_false_iff : p.stopped = false ↔ p.stop = none := by
  rw [Progress.stopped, ← Bool.not_eq_true, Option.not_isSome_iff_eq_none]

/-- Counting a step records nothing. -/
theorem found_expand : (expand limits p e).found = p.found := by
  cases e with
  | node key =>
    show (p.tick limits).found = p.found
    unfold Progress.tick
    dsimp only
    split
    · rfl
    · split <;> rfl
  | arc key => rfl
  | hyperarc key => rfl

/-- Without limits no step is one too many. -/
theorem stop_expand (hp : p.stop = none) : (expand {} p e).stop = none := by
  cases e <;> exact hp

/-- A look for a completion, from a progress to an answer with another. It records nothing, and
unless it was stopped the answer is right. It is the counterpart of `Finds` for the search that
asks whether there is a completion at all. -/
structure Examines (limits : Limits) (xs : List Assignment) (p : Progress)
    (result : Bool × Progress) : Prop where
  found : result.2.found = p.found
  answer : result.2.stop = none → result.1 = !xs.isEmpty
  unlimited : limits = {} → result.2.stop = none

/-- A loop over branches that is done changes nothing any more. -/
theorem foldl_of_done {β σ : Type} (done : σ → Bool) (step : σ → β → σ) (bs : List β) {s : σ}
    (hs : done s = true) : bs.foldl (fun s b => if done s then s else step s b) s = s := by
  induction bs with
  | nil => rfl
  | cons b bs ih =>
    rw [List.foldl_cons, if_pos hs]
    exact ih

/-- One after another is looked through until there is an answer. The answer of the loop is that
of the first branch that has one, and a stop counts as one. -/
theorem foldl_examines {step : Assignment → Progress → Bool × Progress}
    {all : Assignment → List Assignment}
    (hstep : ∀ b p, p.stop = none → Examines limits (all b) p (step b p)) :
    ∀ (bs : List Assignment) (p : Progress), p.stop = none →
      Examines limits (bs.flatMap all) p (bs.foldl (fun (hit, p) b =>
        if hit || p.stopped then (hit, p) else step b p) (false, p)) := by
  intro bs
  induction bs with
  | nil => exact fun p hp => ⟨rfl, fun _ => rfl, fun _ => hp⟩
  | cons b bs ih =>
    intro p hp
    have hone := hstep b p hp
    rw [List.foldl_cons, List.flatMap_cons]
    show Examines limits _ p (bs.foldl _ (if false || p.stopped then (false, p) else step b p))
    rw [Bool.false_or, stopped_eq_false_iff.2 hp, if_neg Bool.false_ne_true]
    -- a branch with an answer or a stop settles it, and the rest is not looked at
    by_cases hresult : ((step b p).1 || (step b p).2.stopped) = true
    · rw [show bs.foldl _ (step b p) = step b p from
        foldl_of_done (fun result => result.1 || result.2.stopped)
          (fun result b => step b result.2) bs hresult]
      refine ⟨hone.found, fun hstop => ?_, hone.unlimited⟩
      rw [stopped_eq_false_iff.2 hstop, Bool.or_false] at hresult
      have hsome := hone.answer hstop
      rw [hresult] at hsome ⊢
      cases hall : all b with
      | nil => exact nomatch hall ▸ hsome
      | cons x xs => rfl
    · rw [Bool.not_eq_true, Bool.or_eq_false_iff] at hresult
      obtain ⟨hhit, hstopped⟩ := hresult
      have hstop := stopped_eq_false_iff.1 hstopped
      have hempty := hone.answer hstop
      rw [hhit, Eq.comm, Bool.not_eq_false', List.isEmpty_iff] at hempty
      rw [hempty, List.nil_append, show step b p = (false, (step b p).2) from Prod.ext hhit rfl]
      have hrest := ih (step b p).2 hstop
      exact ⟨hrest.found.trans hone.found, hrest.answer, hrest.unlimited⟩

/-- **The look for the negative elements is right about them, unless it was stopped.** The proof
is by induction on the plan, with a loop over the extensions at each element. -/
theorem canExtend_examines (s : Occurrence) (limits : Limits) :
    ∀ (plan : List PatternElement) (a : Assignment) (p : Progress), p.stop = none →
      Examines limits (s.completions .negative plan a) p (s.canExtend limits plan a p)
  | [], _, _, hp => ⟨rfl, fun _ => rfl, fun _ => hp⟩
  | e :: rest, a, p, hp => by
    rw [canExtend]
    show Examines _ _ _ (if (expand limits p e).stopped then (false, expand limits p e) else _)
    split
    · rename_i hstopped
      refine ⟨found_expand, fun hstop => ?_, fun hlimits => ?_⟩
      · exact nomatch (stopped_eq_false_iff.2 hstop).symm.trans hstopped
      · rw [hlimits]
        exact stop_expand hp
    · rename_i hstopped
      have hfold := foldl_examines (canExtend_examines s limits rest)
        (s.extensions .negative a e) (expand limits p e)
        (stopped_eq_false_iff.1 (Bool.not_eq_true _ ▸ hstopped))
      exact ⟨hfold.found.trans found_expand, hfold.answer, hfold.unlimited⟩

/-- A search for matches, from a progress to another. It records the beginning of a list, and
unless it was stopped the whole list. The list is what the search would record if it were let. -/
structure Finds (limits : Limits) (xs : List Assignment) (p q : Progress) : Prop where
  found : ∃ taken, taken <+: xs ∧ q.found.toList = p.found.toList ++ taken ∧
    (q.stop = none → taken = xs)
  unlimited : limits = {} → q.stop = none

/-- **One search after another**: it finds what both find, if the second is not begun once the
first was stopped. -/
theorem Finds.append (h : Finds limits xs p q) (hgo : q.stop = none → Finds limits ys q r)
    (hstay : q.stop ≠ none → r = q) : Finds limits (xs ++ ys) p r := by
  obtain ⟨taken, hprefix, hfound, hall⟩ := h.found
  by_cases hstop : q.stop = none
  · obtain ⟨taken', hprefix', hfound', hall'⟩ := (hgo hstop).found
    cases hall hstop
    refine ⟨⟨xs ++ taken', (List.prefix_append_right_inj xs).2 hprefix', ?_, fun hr => ?_⟩,
      (hgo hstop).unlimited⟩
    · rw [hfound', hfound, List.append_assoc]
    · rw [hall' hr]
  · cases hstay hstop
    exact ⟨⟨taken, hprefix.trans (List.prefix_append xs ys), hfound, fun hr => absurd hr hstop⟩,
      h.unlimited⟩

/-- A loop over branches finds what the branches hold, in their order. -/
theorem foldl_finds {step : Assignment → Progress → Progress} {all : Assignment → List Assignment}
    (hstep : ∀ b p, p.stop = none → Finds limits (all b) p (step b p)) :
    ∀ (bs : List Assignment) (p : Progress), p.stop = none →
      Finds limits (bs.flatMap all) p
        (bs.foldl (fun p b => if p.stopped then p else step b p) p) := by
  intro bs
  induction bs with
  | nil =>
    intro p hp
    exact ⟨⟨[], List.prefix_rfl, (List.append_nil _).symm, fun _ => rfl⟩, fun _ => hp⟩
  | cons b bs ih =>
    intro p hp
    rw [List.foldl_cons, List.flatMap_cons, stopped_eq_false_iff.2 hp, if_neg Bool.false_ne_true]
    exact (hstep b p hp).append (ih _) fun hstop =>
      foldl_of_done Progress.stopped (fun p b => step b p) bs (Option.isSome_iff_ne_none.2 hstop)

/-- To record an assignment is to find it. -/
theorem record_finds (limits : Limits) (a : Assignment) (hp : p.stop = none) :
    Finds limits [a] p (p.record limits a) := by
  have htoList : (p.found.push a).toList = p.found.toList ++ [a] := Array.toList_push
  unfold Progress.record
  dsimp only
  split
  · rename_i hmax
    refine ⟨⟨[a], List.prefix_rfl, htoList, fun _ => rfl⟩, fun hlimits => ?_⟩
    rw [hlimits] at hmax
    exact nomatch hmax
  · exact ⟨⟨[a], List.prefix_rfl, htoList, fun _ => rfl⟩, fun _ => hp⟩

/-- At the end of the positive plan an assignment is found if it is accepted. The look for the
negative elements may be stopped, and then it is not recorded, and nothing is recorded after it.
-/
theorem conclude_finds (hp : p.stop = none) :
    Finds limits ([a].filter s.accepts) p (s.conclude limits a p) := by
  have hrejects : s.accepts a = false → [a].filter s.accepts = [] := fun h =>
    List.filter_cons_of_neg (Bool.eq_false_iff.1 h)
  have haccepts : s.accepts a = true → [a].filter s.accepts = [a] := List.filter_cons_of_pos
  unfold conclude
  by_cases hadmissible : s.isAdmissible a = true
  · rw [hadmissible, Bool.not_true, if_neg Bool.false_ne_true]
    by_cases hplan : s.negativePlan.isEmpty = true
    · rw [if_pos hplan, haccepts (by rw [accepts, hadmissible, hplan]; rfl)]
      exact record_finds limits a hp
    · have hcheck : s.accepts a = (s.completions .negative s.negativePlan a).isEmpty := by
        rw [accepts, hadmissible, Bool.eq_false_iff.2 hplan]
        rfl
      rw [if_neg hplan]
      -- the look for negative elements records nothing, and its answer counts
      -- unless it was stopped
      have hexamines := canExtend_examines s limits s.negativePlan a p hp
      generalize s.canExtend limits s.negativePlan a p = result at hexamines ⊢
      obtain ⟨forbidden, q⟩ := result
      have hfound : q.found = p.found := hexamines.found
      show Finds limits _ p (if forbidden || q.stopped then q else q.record limits a)
      split
      · rename_i hdone
        refine ⟨⟨[], List.nil_prefix, by rw [hfound, List.append_nil], fun hstop => ?_⟩,
          hexamines.unlimited⟩
        rw [stopped_eq_false_iff.2 hstop, Bool.or_false] at hdone
        have hsome : forbidden = _ := hexamines.answer hstop
        rw [hdone, ← hcheck, Eq.comm, Bool.not_eq_true'] at hsome
        exact (hrejects hsome).symm
      · rename_i hdone
        rw [Bool.not_eq_true, Bool.or_eq_false_iff] at hdone
        have hstop := stopped_eq_false_iff.1 hdone.2
        have hnone : forbidden = _ := hexamines.answer hstop
        rw [hdone.1, ← hcheck, Eq.comm, Bool.not_eq_false'] at hnone
        rw [haccepts hnone]
        obtain ⟨hrecorded, hunlimited⟩ := record_finds limits a hstop
        rw [hfound] at hrecorded
        exact ⟨hrecorded, hunlimited⟩
  · rw [Bool.not_eq_true] at hadmissible
    rw [hadmissible, Bool.not_false, if_pos rfl, hrejects (by rw [accepts, hadmissible]; rfl)]
    exact ⟨⟨[], List.prefix_rfl, (List.append_nil _).symm, fun _ => rfl⟩, fun _ => hp⟩

/-- **The search records the completions that are accepted**, up to the one at
which it is stopped. -/
theorem search_finds (s : Occurrence) (limits : Limits) :
    ∀ (plan : List PatternElement) (a : Assignment) (p : Progress), p.stop = none →
      Finds limits ((s.completions .positive plan a).filter s.accepts) p
        (s.search limits plan a p)
  | [], _, _, hp => conclude_finds hp
  | e :: rest, a, p, hp => by
    rw [search, completions, List.filter_flatMap]
    show Finds _ _ _ (if (expand limits p e).stopped then expand limits p e else _)
    split
    · rename_i hstopped
      refine ⟨⟨[], List.nil_prefix, by rw [found_expand, List.append_nil], fun hstop => ?_⟩,
        fun hlimits => ?_⟩
      · exact nomatch (stopped_eq_false_iff.2 hstop).symm.trans hstopped
      · rw [hlimits]
        exact stop_expand hp
    · rename_i hstopped
      obtain ⟨hfound, hunlimited⟩ := foldl_finds (search_finds s limits rest)
        (s.extensions .positive a e) (expand limits p e)
        (stopped_eq_false_iff.1 (Bool.not_eq_true _ ▸ hstopped))
      rw [found_expand] at hfound
      exact ⟨hfound, hunlimited⟩

end Search

end Occurrence

end GraphGrammar
