import GraphGrammar.Proofs.Copy
import GraphGrammar.Proofs.RelocatedRun

/-!
# Compacting a graph changes nothing but its slots

Copying a well formed graph closes the gaps that removed elements have left. The graph
is its copy in other slots: the element that stands at some place of the copy is the
one that is at this place among the live elements of the graph
(`Graph.relocated_copy`). So the engine does with either of them what it does with the
other (`Graph.copy_mirrors`): the keys of the graph are translated by their places
among the live ones, and elements added later, which come after all of these, by how
many there were before them.

The relocation leads from the copy to the graph and not the other way round, as every
slot of the copy has its counterpart in the graph but not every slot of the graph has
one in the copy.
-/

namespace GraphGrammar

open Attributed Connected

/-! ## There and back

A relocation translates one way. To come back, keys are ranked, and on what is alive or to come
this is the inverse. -/

section

variable {f back : (κ : Kind) → Key κ → Key κ} (hback : ∀ κ, Function.LeftInverse (back κ) (f κ))
include hback

/-- Translating keys and translating them back is doing nothing. The lemmas below say the same of
everything that has keys in it, down to the reports of a run. -/
theorem map_map_of_leftInverse {κ : Kind} (keys : List (Key κ)) :
    (keys.map (f κ)).map (back κ) = keys := by
  rw [List.map_map, (hback κ).id, List.map_id]

/-- An assignment of the elements of L is translated back with its empty places where they are.
-/
theorem Assignment.rekeyed_back (a : Assignment) : (a.rekeyed f).rekeyed back = a := by
  have hplaces : ∀ {κ : Kind} (places : List (Option (Key κ))),
      (places.map (·.map (f κ))).map (·.map (back κ)) = places := by
    intro κ places
    rw [List.map_map, List.map_congr_left (g := id) fun place _ => ?_, List.map_id]
    rw [Function.comp_apply, Option.map_map, (hback κ).id, Option.map_id]
  unfold Assignment.rekeyed
  rw [hplaces, hplaces, hplaces]

/-- The transform and the numbers of an option are not keys and are not translated to begin with.
-/
theorem RuleOption.rekeyed_back (o : RuleOption) : (o.rekeyed f).rekeyed back = o := by
  unfold RuleOption.rekeyed
  dsimp only
  rw [o.toAssignment.rekeyed_back hback]

theorem Recognition.rekeyed_back (r : Recognition) : (r.rekeyed f).rekeyed back = r := by
  unfold Recognition.rekeyed
  dsimp only
  rw [List.map_map, List.map_congr_left (g := id) fun o _ => o.rekeyed_back hback, List.map_id]

theorem diagnostics_back (diagnostics : List Diagnostic) :
    (diagnostics.map (·.rekeyed f)).map (·.rekeyed back) = diagnostics := by
  rw [List.map_map, List.map_congr_left (g := id) fun diagnostic _ => ?_, List.map_id]
  cases diagnostic with
  | danglingEnd arc name freed => exact congrArg (Diagnostic.danglingEnd · name freed) (hback _ arc)
  | _ => rfl

theorem ApplyReport.rekeyed_back (report : ApplyReport) :
    (report.rekeyed f).rekeyed back = report := by
  unfold ApplyReport.rekeyed
  simp only [map_map_of_leftInverse hback, diagnostics_back hback]

/-- A report of a run has keys only in its diagnostics and in the reports of the applications. -/
theorem RunReport.rekeyed_back (report : RunReport) : (report.rekeyed f).rekeyed back = report := by
  unfold RunReport.rekeyed
  simp only [diagnostics_back hback]

theorem RecipeStep.rekeyed_back (step : RecipeStep) : (step.rekeyed f).rekeyed back = step := by
  unfold RecipeStep.rekeyed
  simp only [map_map_of_leftInverse hback]

end

/-- Results that agree do so the other way round. -/
theorem Agree.flip {ε ε' α α' : Type} {E : ε → ε' → Prop} {E' : ε' → ε → Prop} {R : α → α' → Prop}
    {R' : α' → α → Prop} {x : Except ε α} {x' : Except ε' α'} (h : Agree E R x x')
    (hE : ∀ e e', E e e' → E' e' e) (hR : ∀ a a', R a a' → R' a' a) : Agree E' R' x' x := by
  cases h with
  | error h => exact .error (hE _ _ h)
  | ok h => exact .ok (hR _ _ h)

/-! ## Places among the live elements

The relocation is defined from the list of live keys: the place of a key in it is its slot in the
copy. -/

namespace Registry

variable {κ : Kind} {α : Type} (r : Registry κ α)

/-- The slot of the live element at some place, and beyond these the slots to come. -/
def slotAt (place : Nat) : Nat :=
  (r.keys[place]?.map Key.index).getD (r.cells.length + (place - r.keys.length))

/-- The place of a key among the live ones. Keys that are still to come have the places
after these. -/
def rank (key : Key κ) : Key κ := ⟨r.keys.idxOf key + (key.index - r.cells.length)⟩

variable {r}

/-- The place of a live element leads to its slot. -/
theorem slotAt_of_lt {place : Nat} (h : place < r.keys.length) :
    r.slotAt place = r.keys[place].index := by
  rw [slotAt, List.getElem?_eq_getElem h]
  rfl

/-- Beyond the live elements the places lead to the slots that are still to be filled, in order.
So a relocation extends to the elements that will be added, on either side. -/
theorem slotAt_add (i : Nat) : r.slotAt (r.keys.length + i) = r.cells.length + i := by
  rw [slotAt, List.getElem?_eq_none (Nat.le_add_right ..), Nat.add_sub_cancel_left]
  rfl

theorem index_lt_of_mem_keys {key : Key κ} (h : key ∈ r.keys) : key.index < r.cells.length :=
  lt_of_contains (mem_keys_iff.1 h)

/-- Places and slots are in the same order. That is all a relocation has to be. -/
theorem slotAt_strictMono : StrictMono r.slotAt := by
  refine strictMono_nat_of_lt_succ fun place => ?_
  rcases Nat.lt_trichotomy (place + 1) r.keys.length with hlt | heq | hgt
  · have hkeys : r.keys.Pairwise fun a b => a.index < b.index :=
      List.pairwise_map.2 r.pairwise_entries
    rw [slotAt_of_lt hlt, slotAt_of_lt (Nat.lt_of_succ_lt hlt)]
    exact List.pairwise_iff_getElem.1 hkeys place (place + 1) _ hlt (Nat.lt_succ_self place)
  · -- the last live element stands before the slots to come
    have hnext : r.slotAt (place + 1) = r.cells.length := heq ▸ slotAt_add 0
    rw [slotAt_of_lt (heq ▸ Nat.lt_succ_self place), hnext]
    exact index_lt_of_mem_keys (List.getElem_mem _)
  · obtain ⟨i, rfl⟩ := Nat.le.dest (Nat.le_of_lt_succ hgt)
    rw [Nat.add_assoc, slotAt_add, slotAt_add]
    exact Nat.lt_succ_self _

/-- The element at a place has that place. -/
theorem rank_slotAt (key : Key κ) : r.rank ⟨r.slotAt key.index⟩ = key := by
  obtain ⟨place⟩ := key
  refine congrArg Key.mk ?_
  dsimp only
  rcases Nat.lt_or_ge place r.keys.length with hlt | hge
  · rw [slotAt_of_lt hlt, r.nodup_keys.idxOf_getElem place hlt,
      Nat.sub_eq_zero_of_le (Nat.le_of_lt (index_lt_of_mem_keys (List.getElem_mem hlt)))]
    rfl
  · obtain ⟨i, rfl⟩ := Nat.le.dest hge
    rw [slotAt_add, Nat.add_sub_cancel_left, List.idxOf_eq_length fun hmem => ?_]
    exact Nat.not_lt_of_le (Nat.le_add_right ..) (index_lt_of_mem_keys hmem)

variable [Attributed α] [Connected α] {σ : Relocation} {f : α → α}

/-- **A registry is what was built of its elements, in other slots.** The elements may refer to
other keys there, as long as the relocation takes them back. The list has the elements in the
order of their slots, and with distinct names none of them is renamed. So the place in the list
is all that has to be followed. -/
theorem relocated_ofElements (hindexed : Graph.Indexed r) (hslot : σ.slot κ = r.slotAt)
    (hname : ∀ a, nameOf (f a) = nameOf a) (hmove : ∀ a ∈ r.elements, σ.move (f a) = a) :
    Relocated σ (ofElements (r.elements.map f)) r := by
  obtain ⟨-, hbuilt, hlength⟩ :=
    compact_indexed_ofElements (κ := κ) (r.elements.map f)
  have hnames : (r.elements.map f).map nameOf = r.elements.map nameOf := by
    rw [List.map_map]
    exact List.map_congr_left fun a _ => hname a
  have hbuiltGet : ∀ key : Key κ,
      (ofElements (r.elements.map f)).get? key = (r.elements.map f)[key.index]? :=
    get?_ofElements (hnames ▸ hindexed.nodup_names_elements)
  have hcount : (r.elements.map f).length = r.keys.length := by
    rw [List.length_map, elements, List.length_map, keys, List.length_map]
  have hfinds : ∀ key, r.get? (σ.key key)
      = ((ofElements (r.elements.map f) : Registry κ α).get? key).map σ.move := by
    intro key
    have hkey : σ.key key = ⟨r.slotAt key.index⟩ := congrArg Key.mk (congrFun hslot key.index)
    rw [hkey, hbuiltGet]
    -- a key below the count is the place of a live key; the others stand for slots beyond the
    -- end
    rcases Nat.lt_or_ge key.index r.keys.length with hlt | hge
    · have hplace := getElem?_elements hlt
      obtain ⟨a, ha⟩ := contains_iff.1 (mem_keys_iff.1 (List.getElem_mem hlt))
      have hslot : (⟨r.slotAt key.index⟩ : Key κ) = r.keys[key.index] :=
        congrArg Key.mk (slotAt_of_lt hlt)
      rw [ha] at hplace
      rw [hslot, ha, List.getElem?_map, hplace]
      exact congrArg some (hmove _ (List.mem_of_getElem? hplace)).symm
    · obtain ⟨i, hi⟩ := Nat.le.dest hge
      rw [List.getElem?_eq_none (hcount ▸ hge), ← hi, slotAt_add]
      exact get?_eq_none_of_le (Nat.le_add_right ..)
  -- each live key comes from its place among the live keys
  have hcovers : ∀ key a, r.get? key = some a → ∃ source : Key κ, σ.key source = key := by
    intro key a ha
    obtain ⟨place, hlt, rfl⟩ := List.getElem_of_mem (mem_keys_iff.2 (contains_iff.2 ⟨a, ha⟩))
    exact ⟨⟨place⟩, congrArg Key.mk ((congrFun hslot place).trans (slotAt_of_lt hlt))⟩
  refine ⟨fun i => ?_, hfinds, hcovers, fun name => Option.ext fun key => ?_⟩
  · rw [hslot, hlength, hcount, slotAt_add]
  · rw [hindexed name key, Option.map_eq_some_iff]
    constructor
    · rintro ⟨a, ha, rfl⟩
      obtain ⟨source, rfl⟩ := hcovers key a ha
      rw [hfinds] at ha
      obtain ⟨b, hb, rfl⟩ := Option.map_eq_some_iff.1 ha
      exact ⟨source, (hbuilt _ source).2 ⟨b, hb, (σ.nameOf_move b).symm⟩, rfl⟩
    · rintro ⟨source, hsource, rfl⟩
      obtain ⟨b, hb, rfl⟩ := (hbuilt name source).1 hsource
      exact ⟨σ.move b, by rw [hfinds, hb]; rfl, σ.nameOf_move b⟩

end Registry

namespace Graph

variable {g : Graph}

/-- Takes the slots of the copy of a graph to the slots of the graph. -/
def spread (g : Graph) : Relocation where
  slot
    | .node => g.nodes.slotAt
    | .arc => g.arcs.slotAt
    | .hyperarc => g.hyperarcs.slotAt
  strictMono
    | .node => Registry.slotAt_strictMono
    | .arc => Registry.slotAt_strictMono
    | .hyperarc => Registry.slotAt_strictMono

/-- **The renumbering of the live keys of a graph in their order**, each by its place
among those of its kind. -/
def rank (g : Graph) : (κ : Kind) → Key κ → Key κ
  | .node => g.nodes.rank
  | .arc => g.arcs.rank
  | .hyperarc => g.hyperarcs.rank

/-- Spreading the places out over the slots and ranking the slots is doing nothing. The other way
round it is not, since a slot that is empty has no place. -/
theorem rank_spread (g : Graph) : ∀ κ, Function.LeftInverse (g.rank κ) (g.spread.keys κ)
  | .node, _ => Registry.rank_slotAt _
  | .arc, _ => Registry.rank_slotAt _
  | .hyperarc, _ => Registry.rank_slotAt _

/-- What copying puts in the place of a live node is taken back. -/
theorem spread_renumbering {node : NodeKey} (h : g.hasNode node = true) :
    (g.renumbering.lookup node).map g.spread.key = some node := by
  obtain ⟨place, hlt, rfl⟩ := List.getElem_of_mem (Registry.mem_keys_iff.2 h)
  have hlookup : g.renumbering.lookup g.nodes.keys[place] = some ⟨place⟩ :=
    lookup_renumbering_iff.2 (List.getElem?_eq_getElem hlt)
  rw [hlookup]
  exact congrArg some (congrArg Key.mk (Registry.slotAt_of_lt hlt))

/-- **A well formed graph is its copy in other slots.** -/
theorem relocated_copy (h : g.WellFormed) : g.copy.Relocated g.spread g where
  nodes := by
    have hnodes := Registry.relocated_ofElements (σ := g.spread) (f := id) h.nodes_indexed rfl
      (fun _ => rfl) fun _ _ => rfl
    rwa [List.map_id] at hnodes
  arcs := by
    refine Registry.relocated_ofElements h.arcs_indexed rfl (fun _ => rfl) fun arc harc => ?_
    obtain ⟨key, hkey⟩ := Registry.mem_elements_iff.1 harc
    refine (Arc.mapEnds_mapEnds _ _ _).trans (Arc.mapEnds_eq_self fun node hnode => ?_)
    rw [← spread_renumbering (h.ends_alive key arc hkey node hnode)]
    cases g.renumbering.lookup node <;> rfl
  hyperarcs := by
    refine Registry.relocated_ofElements h.hyperarcs_indexed rfl (fun _ => rfl)
      fun hyperarc hhyperarc => ?_
    obtain ⟨key, hkey⟩ := Registry.mem_elements_iff.1 hhyperarc
    refine (HyperArc.mapMembers_mapMembers _ _ _).trans
      (HyperArc.mapMembers_eq_self fun node hnode => ?_)
    rw [← spread_renumbering (h.members_alive key hyperarc hkey node hnode)]
    cases g.renumbering.lookup node <;> rfl
  name := rfl
  globalLabels := rfl
  globalVariables := rfl

end Graph

/-! ## The engine on either graph

What has been shown for recognition, for applications and for runs is put into one statement
about a graph and its copy. -/

/-- **The engine does with the second graph what it does with the first one**, with
the keys translated. -/
structure Graph.Mirrors (f : (κ : Kind) → Key κ → Key κ) (g g' : Graph) : Prop where
  /-- The live elements are translated in their order. -/
  keys : g'.nodes.keys = g.nodes.keys.map (f .node) ∧ g'.arcs.keys = g.arcs.keys.map (f .arc) ∧
    g'.hyperarcs.keys = g.hyperarcs.keys.map (f .hyperarc)
  /-- A rule has the same options in the same order, found with the same status and
  after as many steps. -/
  recognizes : ∀ rule limits, recognize g' rule limits = (recognize g rule limits).rekeyed f
  /-- So does a rule set. -/
  recognizesWhere : ∀ (rules : RuleSet) limits enabled,
    rules.recognizeWhere g' limits enabled = (rules.recognizeWhere g limits enabled).rekeyed f
  /-- Applying a translated option leads to a graph of the same description, with a
  translated report, or is refused for the same reason. -/
  applies : ∀ rule (o : RuleOption),
    ((∃ sought limits, o ∈ (recognize g sought limits).options) ∨
      ∃ (rules : RuleSet) (limits : Limits) (enabled : Nat → Bool),
        o ∈ (rules.recognizeWhere g limits enabled).options) →
    (apply g' rule (o.rekeyed f)).host.describe = (apply g rule o).host.describe ∧
      Agree (fun failure failure' => failure'.cause = failure.cause)
        (fun report report' => report' = report.rekeyed f)
        (apply g rule o).result (apply g' rule (o.rekeyed f)).result
  /-- Runs of the same script end with graphs of the same description, the same
  counts and for the same reason, or with the same error; and they record the same
  steps on the way. -/
  runs : ∀ (candidate : Candidate) (rules : RuleSet) (script : List (List Nat))
    (config : RunConfig),
    let done := run { candidate with graph := g } rules .scripted script config
    let done' := run { candidate with graph := g' } rules .scripted script config
    done'.candidate.graph.describe = done.candidate.graph.describe ∧
      done'.candidate.generation = done.candidate.generation ∧
      Agree (fun failure failure' => failure' = failure)
        (fun report report' => report' = report.rekeyed f) done.result done'.result ∧
      ∃ steps, done.candidate.recipe = candidate.recipe ++ steps ∧
        done'.candidate.recipe = candidate.recipe ++ steps.map (·.rekeyed f)

/-- **Compacting a graph does not change what the engine does.** The live keys are
renumbered in their order, and up to this renumbering recognition, applications and
scripted runs are the same on a well formed graph and on its copy. -/
theorem Graph.copy_mirrors (g : Graph) (h : g.WellFormed) : g.Mirrors g.rank g.copy := by
  have hcopy := relocated_copy h
  have hback := g.rank_spread
  -- an option of the graph is an option of the copy, rekeyed; so one that is given comes from
  -- one there
  have hsource : ∀ o : RuleOption,
      ((∃ sought limits, o ∈ (recognize g sought limits).options) ∨
        ∃ (rules : RuleSet) (limits : Limits) (enabled : Nat → Bool),
          o ∈ (rules.recognizeWhere g limits enabled).options) →
      ∃ source : RuleOption, source.rekeyed g.spread.keys = o := by
    rintro o (⟨sought, limits, hmem⟩ | ⟨rules, limits, enabled, hmem⟩)
    · rw [recognize_relocated hcopy] at hmem
      obtain ⟨source, -, heq⟩ := List.mem_map.1 hmem
      exact ⟨source, heq⟩
    · rw [RuleSet.recognizeWhere_relocated hcopy] at hmem
      obtain ⟨source, -, heq⟩ := List.mem_map.1 hmem
      exact ⟨source, heq⟩
  refine ⟨⟨?_, ?_, ?_⟩, fun rule limits => ?_, fun rules limits enabled => ?_,
    fun rule o ho => ?_, fun candidate rules script config => ?_⟩
  · rw [hcopy.nodes.keys]
    exact (map_map_of_leftInverse hback _).symm
  · rw [hcopy.arcs.keys]
    exact (map_map_of_leftInverse hback _).symm
  · rw [hcopy.hyperarcs.keys]
    exact (map_map_of_leftInverse hback _).symm
  · rw [recognize_relocated hcopy, Recognition.rekeyed_back hback]
  · rw [RuleSet.recognizeWhere_relocated hcopy, Recognition.rekeyed_back hback]
  · obtain ⟨source, rfl⟩ := hsource o ho
    obtain ⟨hhost, hresult⟩ := apply_relocated hcopy rule source
    rw [source.rekeyed_back hback]
    refine ⟨hhost.describe_eq.symm, hresult.flip (fun _ _ hcause => hcause.symm) ?_⟩
    rintro report _ rfl
    exact (report.rekeyed_back hback).symm
  -- the two runs begin with the same recipe, whose keys are left as they are
  · have hcandidate : Candidate.Relocated g.spread candidate.recipe
        { candidate with graph := g.copy } { candidate with graph := g } :=
      ⟨hcopy, ⟨[], (List.append_nil _).symm, (List.append_nil _).symm⟩, rfl, rfl⟩
    have hruns := run_relocated (Chooser.scripted_blind g.spread) hcandidate rules script config
    obtain ⟨steps, hsteps, hsteps'⟩ := hruns.candidate.recipe
    refine ⟨hruns.candidate.graph.describe_eq.symm, hruns.candidate.generation.symm,
      hruns.result.flip (fun _ _ heq => heq.symm) ?_, _, hsteps', ?_⟩
    · rintro report _ rfl
      exact (report.rekeyed_back hback).symm
    · rw [List.map_map, List.map_congr_left (g := id) fun step _ => step.rekeyed_back hback,
        List.map_id]
      exact hsteps

/-- An edge of which the first node was removed: its slot is empty, and the arc
dangles. -/
def Graph.danglingEdge : Graph := (((Graph.edge true).removeNode ⟨0⟩).map (·.2)).getD .empty

theorem Graph.danglingEdge_wellFormed : Graph.danglingEdge.WellFormed := by
  have hremove : (Graph.edge true).removeNode ⟨0⟩ = some ({ name := "a" }, .danglingEdge) := rfl
  exact (Graph.edge_wellFormed true).removeNode hremove

/-- The node that is left has the second slot of the graph and the first one of the
copy, and the option of the rule that cuts the arc moves along. -/
theorem Graph.copy_mirrors_danglingEdge :
    let g := Graph.danglingEdge
    (recognize g .cutArc {}).options.map (·.toAssignment) = [⟨[some ⟨1⟩], [some ⟨0⟩], []⟩] ∧
      (recognize g.copy .cutArc {}).options.map (·.toAssignment)
        = [⟨[some ⟨0⟩], [some ⟨0⟩], []⟩] ∧
      g.Mirrors g.rank g.copy :=
  ⟨by decide +kernel, by decide +kernel, copy_mirrors _ danglingEdge_wellFormed⟩

end GraphGrammar
