import GraphGrammar.Application.Addition
import GraphGrammar.Application.Reattachment

/-!
# Applying a rule

`apply` puts R in the place of L at an option. The option is checked first;
then what L has beyond the context is deleted, the context is brought from L
to R, what R has beyond it is added, the globals are changed, and the ends
left free are reattached. A derivation that is interrupted leaves the changes
made so far.
-/

namespace GraphGrammar

/-- The host after an application, and the report or the reason why there is
none. -/
structure Application where
  host : Graph
  result : Outcome ApplyError ApplyReport

/-- The steps of an application, once the option is known to match. -/
def carryOut (host : Graph) (rule : GrammarRule) (o : RuleOption) :
    Except Interrupted Derivation := do
  let reversed := Update.reversedArcs host rule o
  let (deleted, free) := Deletion.deleteAll rule o { host }
  let updated := deleted.mapHost (Update.updateNodes rule o)
  let (placed, images) := Addition.addNodes rule o updated
  let moved :=
    if rule.transformNodePositions then placed.mapHost (Update.moveNodes rule o) else placed
  let withContextArcs ← moved.mapHostM (Update.updateArcs rule o images reversed)
  let withContext ← withContextArcs.mapHostM (Update.updateHyperArcs rule o images)
  let withArcs ← Addition.addArcs rule images withContext
  let withAll ← Addition.addHyperArcs rule images withArcs
  Reattachment.reattachAll rule images free (withAll.mapHost (Update.updateGlobals rule o))

/-- Applies a rule at an option. -/
def apply (host : Graph) (rule : GrammarRule) (o : RuleOption) : Application :=
  let name := rule.name
  match (o.check host rule).note s!"while applying rule `{name}`" with
  | .error failure => ⟨host, .error failure⟩
  | .ok () =>
    match carryOut host rule o with
    | .error interrupted => ⟨interrupted.host, .error interrupted.failure⟩
    | .ok done => ⟨done.host, .ok done.report⟩

end GraphGrammar
