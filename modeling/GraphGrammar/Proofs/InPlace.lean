import GraphGrammar.Graph.InPlace
import GraphGrammar.Proofs.Outcome

/-!
# A refused edit changes nothing

An edit in place could stop halfway and leave a graph behind that is neither what it was nor what
was asked for. It never does (`Edit.procedure_eq`): whatever an edit in place can be refused for
it asks before it writes anything, and what it writes then is what the edit makes of the graph when
it is taken for a function.

Asking is told from writing by what a run leaves behind. A procedure that only asks leaves the graph
as it is (`Asks`), so asking first and going on with something that is all or nothing is all or
nothing again (`ask_bind`), and one goes back like this from the last question of a procedure to the
first. Behind the last question there is only writing, which is run (`run_bind`, `run_write`).
A single write that came before a question would break the chain, and for good reason: that
question, if it were answered by a failure, would leave the write behind.
-/

namespace GraphGrammar

open Attributed

namespace Graph

variable (g : Graph) (κ : Kind)

/-- What is written is what is read. -/
@[simp] theorem registry_withRegistry (r : Registry κ (Element κ)) :
    (g.withRegistry κ r).registry κ = r := by
  cases κ <;> rfl

/-- Writing back what was read changes nothing. -/
@[simp] theorem withRegistry_registry : g.withRegistry κ (g.registry κ) = g := by
  cases κ <;> rfl

/-- Of two writes the second counts. -/
@[simp] theorem withRegistry_withRegistry (r r' : Registry κ (Element κ)) :
    (g.withRegistry κ r).withRegistry κ r' = g.withRegistry κ r' := by
  cases κ <;> rfl

end Graph

namespace InPlace

variable {α β : Type} {κ : Kind}

/-! ## Asking and writing

A procedure is compared with the procedure that is all or nothing and has the same outcome. This
is an equation between procedures, so it can be used under what comes before. -/

/-- The procedure only asks: it answers or fails, and leaves the graph as it is. -/
def Asks (p : InPlace α) (question : Graph → Outcome GraphError α) : Prop :=
  ∀ g, p.run g = (question g, g)

/-- What becomes of a graph that waits for the outcome of an edit: the graph that the edit returns
takes its place, or it stays if the edit is refused. -/
def settle (g : Graph) : Outcome GraphError (α × Graph) → Outcome GraphError α × Graph
  | .error failure => (.error failure, g)
  | .ok (a, after) => (.ok a, after)

/-- **The procedure that is all or nothing**: it works an edit out aside and touches the graph when
that has succeeded. -/
def atomically (f : Graph → Outcome GraphError (α × Graph)) : InPlace α := fun g => settle g (f g)

/-- Procedures are the same that return the same and leave the same behind. -/
theorem ext {p q : InPlace α} (h : ∀ g, p.run g = q.run g) : p = q := funext h

theorem run_atomically (f : Graph → Outcome GraphError (α × Graph)) (g : Graph) :
    (atomically f).run g = settle g (f g) := rfl

/-- What comes next is done to the graph as it is by then, and if nothing comes next since there
was a failure, that graph is what is left. -/
theorem run_bind (p : InPlace α) (f : α → InPlace β) (g : Graph) :
    (p >>= f).run g
      = match p.run g with
        | (.error failure, after) => (.error failure, after)
        | (.ok a, after) => (f a).run after := by
  show (match p.run g with | (result, after) => ExceptT.bindCont f result after) = _
  obtain ⟨result, after⟩ := p.run g
  cases result <;> rfl

theorem run_pure (a : α) (g : Graph) : (pure a : InPlace α).run g = (.ok a, g) := rfl

/-- A write never fails. -/
theorem run_write (f : Registry κ (Element κ) → Registry κ (Element κ)) (g : Graph) :
    (write κ f).run g = (.ok (), g.withRegistry κ (f (g.registry κ))) := rfl

/-- The questions of the procedures below are all of this form, and so they leave the graph
alone. -/
theorem asks_ask (question : Graph → Outcome GraphError α) : Asks (ask question) question := by
  intro g
  have hget : (get : InPlace Graph).run g = (.ok g, g) := rfl
  unfold ask
  rw [run_bind, hget]
  dsimp only
  cases question g <;> rfl

/-- **What is asked before a procedure that is all or nothing leaves it so.** -/
theorem ask_bind (question : Graph → Outcome GraphError α) {q : α → InPlace β}
    (f : α → Graph → Outcome GraphError (β × Graph)) (hq : ∀ a, q a = atomically (f a)) :
    ask question >>= q = atomically fun g => question g >>= fun a => f a g := by
  refine ext fun g => ?_
  rw [run_bind, asks_ask, run_atomically]
  cases question g with
  | error failure => rfl
  | ok a => exact congrFun (hq a) g

/-- What is seen is not refused, so what comes next is what comes of it. -/
theorem look_bind (view : Registry κ (Element κ) → α) {q : α → InPlace β}
    (f : α → Graph → Outcome GraphError (β × Graph)) (hq : ∀ a, q a = atomically (f a)) :
    look κ view >>= q = atomically fun g => f (view (g.registry κ)) g :=
  ask_bind _ f hq

/-- What is refused is refused before the rest is begun. -/
theorem refuseIf_bind (cause : GraphError) (refused : Registry κ (Element κ) → Bool)
    {q : Unit → InPlace β} {f : Graph → Outcome GraphError (β × Graph)}
    (hq : q () = atomically f) :
    refuseIf κ cause refused >>= q
      = atomically fun g => if refused (g.registry κ) then .fail cause else f g := by
  refine (ask_bind _ (fun _ => f) fun _ => hq).trans (congrArg atomically (funext fun g => ?_))
  split <;> rfl

/-- To return something else does not change what is settled. -/
theorem atomically_bind_pure {p : InPlace α} {f : Graph → Outcome GraphError (α × Graph)}
    (hp : p = atomically f) (returned : α → β) :
    (do return returned (← p)) = atomically fun g => do
      let (a, after) ← f g
      return (returned a, after) := by
  subst hp
  refine ext fun g => ?_
  show (atomically f >>= _).run g = _
  rw [run_bind, run_atomically, run_atomically]
  cases f g <;> rfl

/-- A procedure that returns nothing may return anything. -/
theorem atomically_then {p : InPlace Unit} {f : Graph → Outcome GraphError Graph}
    (hp : p = atomically fun g => (f g).map (Prod.mk ())) (b : β) :
    (do p; return b) = atomically fun g => (f g).map (Prod.mk b) := by
  refine (atomically_bind_pure hp fun _ => b).trans (congrArg atomically (funext fun g => ?_))
  cases f g <;> rfl

/-! ## Adding

The check of the name and the check of the references come first, in this order, and the slot and
the entry of the index are written behind both. The generic procedures are compared with functions
on registries; for each kind this is what the kind's own function does. -/

/-- The slot and the entry of the index are two writes. Between them the index names a key that
finds nothing, but no question is asked at that point. -/
theorem place_eq (a : Element κ) :
    place κ a = atomically fun g =>
      .ok ((g.registry κ).nextKey, g.withRegistry κ ((g.registry κ).push a).2) := by
  refine look_bind _ (fun key g => .ok (key, g.withRegistry κ
    ⟨(g.registry κ).cells ++ [some a], (g.registry κ).names.insert (nameOf a) key⟩)) fun key => ?_
  refine ext fun g => ?_
  simp only [enterName, run_bind, run_write, run_pure, run_atomically, settle,
    Graph.registry_withRegistry, Graph.withRegistry_withRegistry]

/-- **The name is asked for first, and then what the element refers to.** If both are wrong, it
is the name that is complained of. -/
theorem add_eq (a : Element κ) :
    add κ a = atomically fun g =>
      if (g.registry κ).names.contains (nameOf a) then .fail (.duplicateName κ (nameOf a))
      else g.checkReferences κ a >>= fun _ =>
        .ok ((g.registry κ).nextKey, g.withRegistry κ ((g.registry κ).push a).2) :=
  refuseIf_bind _ _ (ask_bind _ _ fun _ => place_eq a)

/-- The name that is made up is looked for after the check and before anything is written. -/
theorem addUnique_eq (a : Element κ) :
    addUnique κ a = atomically fun g =>
      g.checkReferences κ a >>= fun _ =>
        .ok ((g.registry κ).nextKey, g.withRegistry κ ((g.registry κ).pushUnique a).2) :=
  ask_bind _ _ fun _ => look_bind _
    (fun name g => .ok ((g.registry κ).nextKey,
      g.withRegistry κ ((g.registry κ).push (renamed a name)).2)) fun _ => place_eq _

/-- A node refers to nothing, so the second question is none. -/
theorem add_node (node : Node) : add .node node = atomically (·.addNode node) :=
  add_eq (κ := .node) node

theorem add_arc (arc : Arc) : add .arc arc = atomically (·.addArc arc) :=
  add_eq (κ := .arc) arc

theorem add_hyperarc (hyperarc : HyperArc) :
    add .hyperarc hyperarc = atomically (·.addHyperArc hyperarc) :=
  add_eq (κ := .hyperarc) hyperarc

theorem addUnique_node (node : Node) :
    addUnique .node node = atomically fun g => .ok (g.addNodeUnique node) :=
  addUnique_eq (κ := .node) node

theorem addUnique_arc (arc : Arc) : addUnique .arc arc = atomically (·.addArcUnique arc) :=
  addUnique_eq (κ := .arc) arc

theorem addUnique_hyperarc (hyperarc : HyperArc) :
    addUnique .hyperarc hyperarc = atomically (·.addHyperArcUnique hyperarc) :=
  addUnique_eq (κ := .hyperarc) hyperarc

/-! ## Removing

Removals are never refused, and an element that is not there is not missed. -/

/-- What a removal leaves behind: the graph without the element, or the graph if the element was
not in it. -/
def orUnchanged (g : Graph) : Option (α × Graph) → Option α × Graph
  | none => (none, g)
  | some (a, after) => (some a, after)

/-- The slot is emptied before the name is struck off, and the name is that of the element that
was found. -/
theorem remove_eq (key : Key κ) :
    remove κ key = atomically fun g => .ok (orUnchanged g
      (((g.registry κ).erase key).map fun (a, r) => (a, g.withRegistry κ r))) := by
  refine (look_bind _ (fun found g => .ok (orUnchanged g (found.map fun a =>
    (a, g.withRegistry κ
      ⟨(g.registry κ).cells.set key.index none, (g.registry κ).names.erase (nameOf a)⟩))))
    fun found => ?_).trans (congrArg atomically (funext fun g => ?_))
  · cases found with
    | none => rfl
    | some a =>
      refine ext fun g => ?_
      simp only [strikeName, run_bind, run_write, run_pure, run_atomically, settle, orUnchanged,
        Option.map_some, Graph.registry_withRegistry, Graph.withRegistry_withRegistry]
  · rw [Registry.erase, Option.map_map]
    rfl

theorem remove_arc (key : ArcKey) :
    remove .arc key = atomically fun g => .ok (orUnchanged g (g.removeArc key)) :=
  remove_eq (κ := .arc) key

theorem remove_hyperarc (key : HyperArcKey) :
    remove .hyperarc key = atomically fun g => .ok (orUnchanged g (g.removeHyperArc key)) :=
  remove_eq (κ := .hyperarc) key

/-- The node is removed like any element, and what is written to the arcs and hyperarcs then does
not depend on the nodes. -/
theorem removeNode_eq (key : NodeKey) :
    removeNode key = atomically fun g => .ok (orUnchanged g (g.removeNode key)) := by
  refine ext fun g => ?_
  have hnodes : g.nodes.erase key = (g.registry .node).erase key := rfl
  unfold removeNode Graph.removeNode
  rw [run_bind, remove_eq, run_atomically, run_atomically, hnodes]
  cases (g.registry .node).erase key <;> rfl

/-! ## Changing

What an edit attaches something to is asked for before what is attached. Each lemma is one step
of asking put before the one behind it. -/

/-- An element that has to be there is asked for before it is changed. -/
theorem changeLive_eq (key : Key κ) (f : Element κ → Element κ) :
    changeLive κ key f = atomically fun g =>
      if !(g.registry κ).contains key then .fail (.unknown κ key)
      else .ok ((), g.withRegistry κ ((g.registry κ).modify key f)) :=
  refuseIf_bind _ _ rfl

theorem changeLive_arc (key : ArcKey) (f : Arc → Arc) :
    changeLive .arc key f = atomically fun g =>
      if g.arcs.contains key then .ok ((), g.modifyArc key f) else .fail (.unknown .arc key) := by
  refine (changeLive_eq (κ := .arc) key f).trans (congrArg atomically (funext fun g => ?_))
  show (if !g.arcs.contains key then _ else _) = _
  cases g.arcs.contains key <;> rfl

theorem changeLive_hyperarc (key : HyperArcKey) (f : HyperArc → HyperArc) :
    changeLive .hyperarc key f = atomically fun g =>
      if g.hyperarcs.contains key then .ok ((), g.modifyHyperArc key f)
      else .fail (.unknown .hyperarc key) := by
  refine (changeLive_eq (κ := .hyperarc) key f).trans (congrArg atomically (funext fun g => ?_))
  show (if !g.hyperarcs.contains key then _ else _) = _
  cases g.hyperarcs.contains key <;> rfl

/-- The node is asked for before the arc is, so if neither is alive the node is what is named. -/
theorem setArcEnd_eq (key : ArcKey) (e : ArcEnd) (node : Option NodeKey) :
    setArcEnd key e node = atomically fun g => (g.setArcEnd key e node).map (Prod.mk ()) := by
  cases node with
  | none =>
    refine (changeLive_arc key (Arc.withEnd · e none)).trans
      (congrArg atomically (funext fun g => ?_))
    unfold Graph.setArcEnd
    dsimp only [Option.filter_none]
    split <;> rfl
  | some node =>
    show (requireNode node >>= fun _ => changeLive .arc key (Arc.withEnd · e (some node))) = _
    refine (refuseIf_bind _ _ (changeLive_arc key (Arc.withEnd · e (some node)))).trans
      (congrArg atomically (funext fun g => ?_))
    show (if !g.hasNode node then _ else _) = _
    unfold Graph.setArcEnd
    rw [Option.filter_some]
    cases g.hasNode node with
    | false => rfl
    | true => cases g.arcs.contains key <;> rfl

/-- Here too the node is asked for first. -/
theorem addToHyperArc_eq (key : HyperArcKey) (node : NodeKey) :
    addToHyperArc key node
      = atomically fun g => (g.addToHyperArc key node).map (Prod.mk ()) := by
  refine (refuseIf_bind _ _ (changeLive_hyperarc key (HyperArc.attach · node))).trans
    (congrArg atomically (funext fun g => ?_))
  show (if !g.hasNode node then _ else _) = _
  unfold Graph.addToHyperArc
  split
  · rfl
  · split <;> rfl

theorem removeFromHyperArc_eq (key : HyperArcKey) (node : NodeKey) :
    removeFromHyperArc key node
      = atomically fun g => (g.removeFromHyperArc key node).map (Prod.mk ()) := by
  refine (changeLive_hyperarc key (HyperArc.detach · node)).trans
    (congrArg atomically (funext fun g => ?_))
  unfold Graph.removeFromHyperArc
  split <;> rfl

/-! ## Renaming

Here the writes come one behind the other, and it is computed what they come to. -/

/-- Of the three writes of a renaming the last one is to the element, and yet the element is known
from the start: nothing between the look-up and the write takes it away. -/
theorem rename_eq (key : Key κ) (name : Name) :
    rename κ key name = atomically fun g =>
      ((g.registry κ).rename key name).map fun r => ((), g.withRegistry κ r) := by
  refine (look_bind _ (fun found g => found.elim (.fail (.unknown κ key)) fun a =>
    if nameOf a = name then .ok ((), g)
    else if (g.registry κ).names.contains name then .fail (.duplicateName κ name)
    else .ok ((), g.withRegistry κ
      { (g.registry κ).modify key (renamed · name) with
        names := ((g.registry κ).names.erase (nameOf a)).insert name key }))
    fun found => ?_).trans (congrArg atomically (funext fun g => ?_))
  · cases found with
    | none => exact ext fun g => asks_ask _ g
    | some a =>
      by_cases hsame : nameOf a = name
      · simp only [hsame, ↓reduceIte, Option.elim_some]
        rfl
      · simp only [hsame, ↓reduceIte, Option.elim_some]
        refine refuseIf_bind _ _ (ext fun g => ?_)
        simp only [strikeName, enterName, change, run_bind, run_write, run_atomically, settle,
          Graph.registry_withRegistry, Graph.withRegistry_withRegistry]
        rfl
  · unfold Registry.rename
    cases (g.registry κ).get? key with
    | none => rfl
    | some a =>
      dsimp only [Option.elim_some]
      split
      · rw [Except.map, Graph.withRegistry_registry]
      · split <;> rfl

theorem rename_node (key : NodeKey) (name : Name) :
    rename .node key name = atomically fun g => (g.renameNode key name).map (Prod.mk ()) := by
  refine (rename_eq key name).trans (congrArg atomically (funext fun g => ?_))
  show ((g.nodes.rename key name).map _) = _
  unfold Graph.renameNode
  cases g.nodes.rename key name <;> rfl

theorem rename_arc (key : ArcKey) (name : Name) :
    rename .arc key name = atomically fun g => (g.renameArc key name).map (Prod.mk ()) := by
  refine (rename_eq key name).trans (congrArg atomically (funext fun g => ?_))
  show ((g.arcs.rename key name).map _) = _
  unfold Graph.renameArc
  cases g.arcs.rename key name <;> rfl

theorem rename_hyperarc (key : HyperArcKey) (name : Name) :
    rename .hyperarc key name
      = atomically fun g => (g.renameHyperArc key name).map (Prod.mk ()) := by
  refine (rename_eq key name).trans (congrArg atomically (funext fun g => ?_))
  show ((g.hyperarcs.rename key name).map _) = _
  unfold Graph.renameHyperArc
  cases g.hyperarcs.rename key name <;> rfl

end InPlace

/-! ## All edits

The edits are gone through once. Everything that is said of histories afterwards is said of
outcomes. -/

namespace Graph

/-- The keys that a removal makes void, and the graph it leaves behind. -/
def afterRemoval {κ : Kind} {α : Type} (g : Graph) (key : Key κ) (removal : Option (α × Graph)) :
    Edit.Keys × Graph :=
  let (removed, after) := InPlace.orUnchanged g removal
  (.void key removed, after)

/-- What an edit makes of a graph, taken for a function, and the keys concerned. -/
def outcome (g : Graph) : Edit → Outcome GraphError (Edit.Keys × Graph)
  | .addNode node => do
    let (key, after) ← g.addNode node
    return (.issue key, after)
  | .addNodeUnique node =>
    let (key, after) := g.addNodeUnique node
    .ok (.issue key, after)
  | .addArc arc => do
    let (key, after) ← g.addArc arc
    return (.issue key, after)
  | .addArcUnique arc => do
    let (key, after) ← g.addArcUnique arc
    return (.issue key, after)
  | .addHyperArc hyperarc _ => do
    let (key, after) ← g.addHyperArc hyperarc
    return (.issue key, after)
  | .addHyperArcUnique hyperarc _ => do
    let (key, after) ← g.addHyperArcUnique hyperarc
    return (.issue key, after)
  | .removeNode key => .ok (g.afterRemoval key (g.removeNode key))
  | .removeArc key => .ok (g.afterRemoval key (g.removeArc key))
  | .removeHyperArc key => .ok (g.afterRemoval key (g.removeHyperArc key))
  | .changeNode key f _ => .ok ({}, g.modifyNode key f)
  | .changeArc key f _ => .ok ({}, g.modifyArc key f)
  | .changeHyperArc key f _ => .ok ({}, g.modifyHyperArc key f)
  | .setArcEnd key e node => (g.setArcEnd key e node).map (Prod.mk {})
  | .addToHyperArc key node => (g.addToHyperArc key node).map (Prod.mk {})
  | .removeFromHyperArc key node => (g.removeFromHyperArc key node).map (Prod.mk {})
  | .renameNode key name => (g.renameNode key name).map (Prod.mk {})
  | .renameArc key name => (g.renameArc key name).map (Prod.mk {})
  | .renameHyperArc key name => (g.renameHyperArc key name).map (Prod.mk {})
  | .repairNames => .ok ({}, g.repairNames.1)

end Graph

open InPlace in
/-- **An edit in place is all or nothing**, and if it is not refused it makes of the graph what the
edit makes of it when it is taken for a function. -/
theorem Edit.procedure_eq (e : Edit) : e.procedure = InPlace.atomically (·.outcome e) := by
  cases e with
  | addNode node => exact atomically_bind_pure (add_node node) _
  | addNodeUnique node => exact atomically_bind_pure (addUnique_node node) _
  | addArc arc => exact atomically_bind_pure (add_arc arc) _
  | addArcUnique arc => exact atomically_bind_pure (addUnique_arc arc) _
  | addHyperArc hyperarc => exact atomically_bind_pure (add_hyperarc hyperarc) _
  | addHyperArcUnique hyperarc => exact atomically_bind_pure (addUnique_hyperarc hyperarc) _
  | removeNode key => exact atomically_bind_pure (removeNode_eq key) _
  | removeArc key => exact atomically_bind_pure (remove_arc key) _
  | removeHyperArc key => exact atomically_bind_pure (remove_hyperarc key) _
  | changeNode key f => rfl
  | changeArc key f => rfl
  | changeHyperArc key f => rfl
  | setArcEnd key e node => exact atomically_then (setArcEnd_eq key e node) _
  | addToHyperArc key node => exact atomically_then (addToHyperArc_eq key node) _
  | removeFromHyperArc key node => exact atomically_then (removeFromHyperArc_eq key node) _
  | renameNode key name => exact atomically_then (rename_node key name) _
  | renameArc key name => exact atomically_then (rename_arc key name) _
  | renameHyperArc key name => exact atomically_then (rename_hyperarc key name) _
  | repairNames => rfl

namespace Graph

variable {g : Graph} {e : Edit}

/-- What performing an edit leaves behind, by its outcome. Everything about histories goes
through this equation. -/
theorem perform_eq (g : Graph) (e : Edit) :
    g.perform e
      = match g.outcome e with
        | .error failure => ⟨g, .error failure⟩
        | .ok (keys, after) => ⟨after, .ok keys⟩ := by
  unfold perform
  rw [e.procedure_eq, InPlace.run_atomically]
  cases g.outcome e <;> rfl

/-- **A refused edit changes nothing**, be the graph well formed or not. -/
theorem graph_perform_of_error {failure : Report GraphError}
    (h : (g.perform e).result = .error failure) : (g.perform e).graph = g := by
  rw [perform_eq] at h ⊢
  cases houtcome : g.outcome e with
  | error _ => rfl
  | ok done =>
    rw [houtcome] at h
    exact nomatch h

/-- An edit that is not refused has an outcome. -/
theorem outcome_of_ok {keys : Edit.Keys} (h : (g.perform e).result = .ok keys) :
    g.outcome e = .ok (keys, (g.perform e).graph) := by
  rw [perform_eq] at h ⊢
  cases houtcome : g.outcome e with
  | error failure =>
    rw [houtcome] at h
    exact nomatch h
  | ok done =>
    rw [houtcome] at h
    cases h
    rfl

end Graph

end GraphGrammar
