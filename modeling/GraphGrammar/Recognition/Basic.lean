import GraphGrammar.Recognition.Search

/-!
# Recognition

`recognize` finds the options of a rule in a host. Global labels and global
variables are tested first, since they cost nothing; then the search finds the
assignments. Where the order of global labels matters, each place at which the
labels of L begin gives an option of its own.
-/

namespace GraphGrammar

/-- The options of a rule in a host, as far as they were found. -/
structure Recognition where
  options : List RuleOption := []
  status : RecognitionStatus := .complete
  /-- The steps taken. -/
  steps : Nat := 0

/-- Whether everything asked for was found. -/
def Recognition.isComplete (r : Recognition) : Bool := r.status == .complete

/-- The places at which a run of labels begins in a list of labels. -/
def runStarts (wanted given : List Label) : List Nat :=
  (List.range given.length).filter fun start => wanted.isPrefixOf (given.drop start)

/-- Where the global labels of L begin in those of the host, or the one entry
`none` if they are there and their order does not matter. Empty if they are
not there. -/
def globalLabelStarts (rule : GrammarRule) (host : LabelSet) : List (Option Nat) :=
  let wanted := rule.l.globalLabels
  if host.containsAny rule.negateGlobalLabels then []
  else if !rule.orderedGlobalLabels then
    let present :=
      if rule.containsAllGlobalLabels then host.sameLabels wanted else host.containsAll wanted
    if present then [none] else []
  else if rule.containsAllGlobalLabels && wanted.size != host.size then []
  else if wanted.isEmpty then [none]
  else (runStarts wanted.toList host.toList).map some

/-- The shift that takes the first assigned node of L to its image. -/
def placement (host : Graph) (rule : GrammarRule) (a : Assignment) : Transform Float :=
  let anchor := a.nodes.zipIdx.findSome? fun (image, index) =>
    image.map fun key => (rule.l.node? ⟨index⟩, host.node? key)
  match anchor with
  | some (some node, some image) =>
    .shift (image.position.x - node.position.x) (image.position.y - node.position.y)
  | _ => .identity

/-- Numbers options in the order of a list. -/
def numberOptions (options : List RuleOption) : List RuleOption :=
  options.zipIdx.map fun (option, optionNumber) => { option with optionNumber }

/-- The options of assignments, one for each start of the global labels. -/
def optionsOf (host : Graph) (rule : GrammarRule) (starts : List (Option Nat))
    (found : List Assignment) : List RuleOption :=
  numberOptions <| found.flatMap fun a =>
    starts.map fun globalLabelStart =>
      { a with globalLabelStart, positionTransform := placement host rule a }

/-- Finds the options of a rule in a host, numbered in the order of
discovery. -/
def recognize (host : Graph) (rule : GrammarRule) (limits : Limits) : Recognition :=
  let starts := globalLabelStarts rule host.globalLabels
  if starts.isEmpty then {}
  else if !rule.globalVariableConstraints.all (·.holds host.globalVariables) then {}
  else
    let done := (Occurrence.ofRule host rule).run limits
    let options := optionsOf host rule starts done.found.toList
    { options := match limits.maxOptions with
        | none => options
        | some count => options.take count
      status := done.status
      steps := done.steps }

end GraphGrammar
