import GraphGrammar.Proofs.RelocatedFit
import GraphGrammar.Proofs.RuleSet

/-!
# Recognition does not look at slots

Of two graphs of which the second is the first in other slots, a rule has the same
options, in the same order and found in as many steps, up to the keys in them
(`recognize_relocated`). The search is followed by induction on the plan, as a step of
it extends the same assignments in the same order; the limits on steps and options
are met at the same place, as both are counted alike.

The options of a rule set are numbered and compared with each other on top of that,
which does not look at keys but for whether two of them are the same
(`RuleSet.recognizeWhere_relocated`).

The limits of a search count steps and options, and both are counted alike. So it does not matter
whether a search is cut short: two that correspond are cut at the same point.
-/

namespace GraphGrammar

/-- A search that found assignments with other keys in them. -/
def Progress.rekeyed (p : Progress) (f : (κ : Kind) → Key κ → Key κ) : Progress :=
  { p with found := p.found.map (·.rekeyed f) }

/-- A recognition with other keys in its options. -/
def Recognition.rekeyed (r : Recognition) (f : (κ : Kind) → Key κ → Key κ) : Recognition :=
  { r with options := r.options.map (·.rekeyed f) }

namespace Occurrence

variable {σ : Relocation} {s s' : Occurrence}

namespace Relocated

variable (h : s.Relocated σ s') (a : Assignment)
include h

/-! ### The match as a whole

What is asked of an assignment as a whole is asked of counts and of arcs between images. The plan
is a matter of the rule and of the degrees in its pattern. -/

theorem isSpanning : s'.isSpanning (a.rekeyed σ.keys) = s.isSpanning a := by
  unfold Occurrence.isSpanning
  rw [a.nodeImages_rekeyed, List.length_map, h.host.nodes.count]

theorem isInduced : s'.isInduced (a.rekeyed σ.keys) = s.isInduced a := by
  have hany : ∀ side : Option NodeKey,
      (side.map σ.key).any (a.nodeImages.map (σ.keys .node)).contains
        = side.any a.nodeImages.contains := by
    intro side
    cases side with
    | none => rfl
    | some node => exact σ.contains_keys a.nodeImages node
  unfold Occurrence.isInduced
  rw [h.host.arcs.entries, List.all_map, a.nodeImages_rekeyed, a.arcImages_rekeyed]
  congr 1
  funext entry
  dsimp only [Function.comp_apply]
  rw [σ.source_move, σ.target_move, hany, hany, σ.contains_keys]

theorem isAdmissible : s'.isAdmissible (a.rekeyed σ.keys) = s.isAdmissible a := by
  unfold Occurrence.isAdmissible
  rw [h.rule, h.isSpanning, h.isInduced]

theorem positivePlan : s'.positivePlan = s.positivePlan := by
  unfold Occurrence.positivePlan
  rw [h.rule, h.positive]

theorem negativePlan : s'.negativePlan = s.negativePlan := by
  unfold Occurrence.negativePlan
  rw [h.rule]

theorem unassigned : s'.unassigned = s.unassigned.rekeyed σ.keys := by
  unfold Occurrence.unassigned Assignment.rekeyed
  rw [h.rule]
  simp only [List.map_replicate, Option.map_none]

/-! ### The search

The search carries its progress along, and each function of it that takes a progress and returns
one is shown to commute with translating the keys in what was found. -/

omit h in
theorem tick (limits : Limits) (p : Progress) :
    (p.rekeyed σ.keys).tick limits = (p.tick limits).rekeyed σ.keys := by
  unfold Progress.tick Progress.rekeyed
  dsimp only
  split
  · rfl
  split
  · rfl
  · rfl

omit h in
theorem expand (limits : Limits) (p : Progress) (e : PatternElement) :
    Occurrence.expand limits (p.rekeyed σ.keys) e
      = (Occurrence.expand limits p e).rekeyed σ.keys := by
  cases e with
  | node key => exact tick limits p
  | arc key => rfl
  | hyperarc key => rfl

omit h in
theorem record (limits : Limits) (p : Progress) :
    (p.rekeyed σ.keys).record limits (a.rekeyed σ.keys)
      = (p.record limits a).rekeyed σ.keys := by
  unfold Progress.record Progress.rekeyed
  dsimp only
  rw [← Array.map_push, Array.size_map]
  split
  · rfl
  · rfl

/-- Whether the negative elements can be placed as well. Nothing of this is kept but the answer
and the steps it took, which are the same. -/
theorem canExtend (limits : Limits) :
    ∀ (plan : List PatternElement) (a : Assignment) (p : Progress),
      s'.canExtend limits plan (a.rekeyed σ.keys) (p.rekeyed σ.keys)
        = ((s.canExtend limits plan a p).1, (s.canExtend limits plan a p).2.rekeyed σ.keys)
  | [], _, _ => rfl
  | e :: rest, a, p => by
    rw [Occurrence.canExtend, Occurrence.canExtend, expand, h.extensions]
    dsimp only
    by_cases hstopped : (Occurrence.expand limits p e).stopped = true
    · rw [if_pos hstopped, if_pos (show ((Occurrence.expand limits p e).rekeyed σ.keys).stopped
        = true from hstopped)]
    · rw [if_neg hstopped, if_neg (show ¬ ((Occurrence.expand limits p e).rekeyed σ.keys).stopped
        = true from hstopped), List.foldl_map]
      let moved := fun found : Bool × Progress => (found.1, found.2.rekeyed σ.keys)
      show List.foldl _ (moved (false, Occurrence.expand limits p e)) _
        = moved (List.foldl _ (false, Occurrence.expand limits p e) _)
      refine List.foldl_hom moved fun found b => ?_
      show (if found.1 || found.2.stopped then _ else _) = _
      split
      · rfl
      · exact canExtend limits rest b found.2

/-- An assignment that is complete is kept or dropped alike in both searches. -/
theorem conclude (limits : Limits) (p : Progress) :
    s'.conclude limits (a.rekeyed σ.keys) (p.rekeyed σ.keys)
      = (s.conclude limits a p).rekeyed σ.keys := by
  unfold Occurrence.conclude
  rw [h.isAdmissible, h.negativePlan, h.canExtend, record]
  split
  · rfl
  split
  · rfl
  dsimp only
  rw [record]
  show (if _ || (s.canExtend limits s.negativePlan a p).2.stopped then _ else _) = _
  split
  · rfl
  · rfl

/-- **The search finds the same, in the same order and in as many steps.** -/
theorem search (limits : Limits) :
    ∀ (plan : List PatternElement) (a : Assignment) (p : Progress),
      s'.search limits plan (a.rekeyed σ.keys) (p.rekeyed σ.keys)
        = (s.search limits plan a p).rekeyed σ.keys
  | [], a, p => h.conclude a limits p
  | e :: rest, a, p => by
    rw [Occurrence.search, Occurrence.search, expand, h.extensions]
    by_cases hstopped : (Occurrence.expand limits p e).stopped = true
    · rw [if_pos hstopped, if_pos (show ((Occurrence.expand limits p e).rekeyed σ.keys).stopped
        = true from hstopped)]
    · rw [if_neg hstopped, if_neg (show ¬ ((Occurrence.expand limits p e).rekeyed σ.keys).stopped
        = true from hstopped), List.foldl_map]
      refine List.foldl_hom (fun found : Progress => found.rekeyed σ.keys) fun found b => ?_
      show (if found.stopped then _ else _) = _
      split
      · rfl
      · exact search limits rest b found

/-- A whole search, with its status and its steps. -/
theorem run (limits : Limits) : s'.run limits = (s.run limits).rekeyed σ.keys := by
  have hstart : Progress.rekeyed {} σ.keys = {} := congrArg (Progress.mk 0 · none) Array.map_empty
  unfold Occurrence.run
  rw [h.positivePlan, h.unassigned, ← h.search, hstart]

end Relocated

end Occurrence

/-! ## Options

The assignments that are found are translated, and so are the options made of them. -/

section

variable {σ : Relocation} {host host' : Graph}

/-- The transform is computed from positions, and a node keeps its position in another slot. -/
theorem placement_relocated (h : host.Relocated σ host') (rule : GrammarRule) (a : Assignment) :
    placement host' rule (a.rekeyed σ.keys) = placement host rule a := by
  have hslots : (a.rekeyed σ.keys).nodes.zipIdx
      = a.nodes.zipIdx.map (Prod.map (Option.map σ.key) id) := List.zipIdx_map ..
  unfold placement
  dsimp only
  rw [hslots, List.findSome?_map]
  congr 1
  refine congrArg (List.findSome? · _) (funext fun slot => ?_)
  obtain ⟨image, index⟩ := slot
  cases image with
  | none => rfl
  | some key => exact congrArg (fun node => some (_, node)) (h.node? key)

theorem numberOptions_rekeyed (options : List RuleOption) (f : (κ : Kind) → Key κ → Key κ) :
    numberOptions (options.map (·.rekeyed f)) = (numberOptions options).map (·.rekeyed f) :=
  numberOptions_map (f := (·.rekeyed f)) (fun _ _ => rfl) options

/-- The options that are made of the assignments found, in their order, each with every start of
the global labels. -/
theorem optionsOf_relocated (h : host.Relocated σ host') (rule : GrammarRule)
    (starts : List (Option Nat)) (found : List Assignment) :
    optionsOf host' rule starts (found.map (·.rekeyed σ.keys))
      = (optionsOf host rule starts found).map (·.rekeyed σ.keys) := by
  unfold optionsOf
  rw [← numberOptions_rekeyed, List.flatMap_map, List.map_flatMap]
  congr 2
  funext a
  rw [List.map_map, placement_relocated h]
  rfl

/-- **A rule has the same options in other slots**, found in the same order and in as
many steps. -/
theorem recognize_relocated (h : host.Relocated σ host') (rule : GrammarRule) (limits : Limits) :
    recognize host' rule limits = (recognize host rule limits).rekeyed σ.keys := by
  unfold recognize
  rw [h.globalLabels, h.globalVariables, (Occurrence.relocated_ofRule h rule).run limits]
  dsimp only
  split
  · rfl
  split
  · rfl
  have hoptions : optionsOf host' rule (globalLabelStarts rule host.globalLabels)
      (((Occurrence.ofRule host rule).run limits).rekeyed σ.keys).found.toList
        = (optionsOf host rule (globalLabelStarts rule host.globalLabels)
          ((Occurrence.ofRule host rule).run limits).found.toList).map (·.rekeyed σ.keys) := by
    rw [← optionsOf_relocated h]
    exact congrArg _ Array.toList_map
  rw [hoptions]
  unfold Recognition.rekeyed
  cases limits.maxOptions with
  | none => rfl
  | some count =>
    dsimp only
    rw [List.map_take]
    rfl

end

/-! ## Rule sets -/

/-- Options are confluent unless both have an image in common, and no two keys become one. -/
theorem areConfluent_rekeyed (σ : Relocation) (a b : RuleOption) :
    areConfluent (a.rekeyed σ.keys) (b.rekeyed σ.keys) = areConfluent a b :=
  a.toAssignment.disjoint_rekeyed σ b.toAssignment

/-- The options that an option is confluent with are listed by their numbers, which are no keys.
-/
theorem assignConfluence_rekeyed (σ : Relocation) (options : List RuleOption) :
    assignConfluence (options.map (·.rekeyed σ.keys))
      = (assignConfluence options).map (·.rekeyed σ.keys) :=
  assignConfluence_map (f := (·.rekeyed σ.keys)) (fun _ _ => rfl) (fun _ => rfl)
    (areConfluent_rekeyed σ) options

namespace RuleSet

variable {σ : Relocation} {host host' : Graph}

/-- The rules are gone through in order, each with what the limits have left. The induction is on
the rules still to come. -/
theorem recognizeFrom_relocated (h : host.Relocated σ host') (index : Nat) (limits : Limits) :
    ∀ (rules : List (GrammarRule × Nat)) (sofar : Recognition),
      recognizeFrom index host' limits rules (sofar.rekeyed σ.keys)
        = (recognizeFrom index host limits rules sofar).rekeyed σ.keys
  | [], _ => rfl
  | (rule, ruleNumber) :: rest, sofar => by
    have hnext : ∀ found : Recognition, (⟨(sofar.rekeyed σ.keys).options ++
        (found.rekeyed σ.keys).options.map ({ · with ruleSetIndex := index, ruleNumber }),
        found.status, sofar.steps + found.steps⟩ : Recognition)
          = Recognition.rekeyed ⟨sofar.options ++
            found.options.map ({ · with ruleSetIndex := index, ruleNumber }),
            found.status, sofar.steps + found.steps⟩ σ.keys := by
      intro found
      unfold Recognition.rekeyed
      rw [List.map_append, List.map_map, List.map_map]
      rfl
    rw [recognizeFrom, recognizeFrom, recognize_relocated h]
    rw [show ((GraphGrammar.recognize host rule limits).rekeyed σ.keys).isComplete
      = (GraphGrammar.recognize host rule limits).isComplete from rfl]
    split
    · rw [← recognizeFrom_relocated h index limits rest, ← hnext]
      rfl
    · exact hnext _

/-- **So does a rule set.** -/
theorem recognizeWhere_relocated (h : host.Relocated σ host') (s : RuleSet) (limits : Limits)
    (enabled : Nat → Bool) : s.recognizeWhere host' limits enabled
      = (s.recognizeWhere host limits enabled).rekeyed σ.keys := by
  have hfrom := fun rules => recognizeFrom_relocated h s.index limits rules {}
  unfold recognizeWhere
  dsimp only
  rw [show recognizeFrom s.index host' limits _ {} = _ from hfrom _]
  unfold Recognition.rekeyed
  dsimp only
  rw [numberOptions_rekeyed, assignConfluence_rekeyed]

end RuleSet

end GraphGrammar
