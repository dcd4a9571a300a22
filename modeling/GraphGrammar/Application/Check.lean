import GraphGrammar.Report
import GraphGrammar.Rule.Basic
import GraphGrammar.RuleOption

/-!
# Whether an option can be applied

The host may have changed since an option was recognized. Before anything is
changed, the option is checked against the host as it is: each positive
element of L has a live image, connected as the element is, and the negative
ones have none. Labels, variables and the conditions of the rule are not
looked at again.
-/

namespace GraphGrammar

/-- Why an option was not applied. -/
inductive ApplyError where
  /-- The option is not one for the rule of this name. -/
  | optionShape (rule : String)
  /-- The host has changed in a way that concerns the option. -/
  | staleOption
  /-- An edit of the host was refused. -/
  | graph
deriving DecidableEq, Repr

namespace ApplyError

/-- The wording of a cause. -/
def text : ApplyError → String
  | optionShape rule => s!"the option was not recognized for rule `{rule}`"
  | staleOption => "the option no longer matches the host"
  | graph => "the host graph rejected an update"

instance : Cause ApplyError := ⟨text⟩

end ApplyError

namespace RuleOption

/-- Refuses an option of which some part, named by `what`, is not as it
was. -/
def require (what : String) (holds : Bool) : Outcome ApplyError Unit :=
  if holds then .ok () else (Outcome.fail .staleOption).note what

/-- A node of L has a live image, or none if it is negative. -/
def checkNode (o : RuleOption) (host : Graph) (rule : GrammarRule) (entry : NodeKey × Node) :
    Outcome ApplyError Unit :=
  let (key, node) := entry
  let name := node.name
  let image := o.node? key
  require s!"image of node `{name}`"
    (if rule.isNegativeNode key then image.isNone else image.any host.hasNode)

/-- The attached ends of an arc of L, through their images, are at the given
places. -/
def endsAgree (o : RuleOption) (arc : Arc) (source target : Option NodeKey) : Bool :=
  let agrees := fun wanted given : Option NodeKey => wanted.isNone || given == wanted
  agrees (arc.source.bind o.node?) source && agrees (arc.target.bind o.node?) target

/-- The image of an arc of L joins the images of its ends, back to front only
if the arc has no orientation or the image points both ways. -/
def arcAgrees (o : RuleOption) (arc host : Arc) : Bool :=
  o.endsAgree arc host.source host.target
    || ((!arc.isOriented || host.doublyDirected) && o.endsAgree arc host.target host.source)

/-- An arc of L has a live image that joins the images of its ends, or none if
it is negative. -/
def checkArc (o : RuleOption) (host : Graph) (rule : GrammarRule) (entry : ArcKey × Arc) :
    Outcome ApplyError Unit :=
  let (key, arc) := entry
  let name := arc.name
  if rule.isNegativeArc key then
    require s!"image of negative arc `{name}`" (o.arc? key).isNone
  else
    match (o.arc? key).bind host.arc? with
    | none => require s!"image of arc `{name}`" false
    | some image => require s!"ends of arc `{name}`" (o.arcAgrees arc image)

/-- A hyperarc of L has a live image that contains the images of its members,
or none if it is negative. -/
def checkHyperArc (o : RuleOption) (host : Graph) (rule : GrammarRule)
    (entry : HyperArcKey × HyperArc) : Outcome ApplyError Unit :=
  let (key, hyperarc) := entry
  let name := hyperarc.name
  if rule.isNegativeHyperArc key then
    require s!"image of negative hyperarc `{name}`" (o.hyperarc? key).isNone
  else
    match (o.hyperarc? key).bind host.hyperarc? with
    | none => require s!"image of hyperarc `{name}`" false
    | some image =>
      require s!"members of hyperarc `{name}`"
        (hyperarc.members.all fun member => (o.node? member).any image.contains)

/-- Whether an option has a place for each element of L. -/
def hasShapeOf (o : RuleOption) (l : Graph) : Bool :=
  o.nodes.length == l.nodes.count && o.arcs.length == l.arcs.count
    && o.hyperarcs.length == l.hyperarcs.count

/-- Refuses an option that is not one for the rule or no longer matches the
host. -/
def check (o : RuleOption) (host : Graph) (rule : GrammarRule) : Outcome ApplyError Unit :=
  if !o.hasShapeOf rule.l then .fail (.optionShape rule.name)
  else do
    rule.l.nodes.entries.forM (o.checkNode host rule)
    rule.l.arcs.entries.forM (o.checkArc host rule)
    rule.l.hyperarcs.entries.forM (o.checkHyperArc host rule)

end RuleOption

end GraphGrammar
