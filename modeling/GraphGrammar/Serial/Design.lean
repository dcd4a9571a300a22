import GraphGrammar.Design.Candidate
import GraphGrammar.Diagnostic
import GraphGrammar.RuleSet
import GraphGrammar.Serial.Rule

/-!
# Stored options, rule sets, candidates and diagnostics

All of these are stored whole: a field that is not there is refused unless its
value may be absent.

A candidate carries its graph and its recipe. The keys in the recipe are written as they are,
whereas the graph is written by names and connected when it is read; see
`GraphGrammar.Proofs.SavedCandidate` for what becomes of them.
-/

namespace GraphGrammar

/-- A row of a transform is the list of its three numbers. -/
instance : Stored (Row Float) where
  write row := .list [.float row.x, .float row.y, .float row.one]
  read? d := do
    let [x, y, one] ← (Stored.read? d : Option (List Float)) | none
    return ⟨x, y, one⟩

/-- A transform is stored as its matrix, row by row. -/
instance : Stored (Transform Float) where
  write t := .record [("matrix", .list [.of t.xRow, .of t.yRow, .of t.wRow])]
  read? d := do
    let fields ← d.fields? ["matrix"]
    let [xRow, yRow, wRow] ← (fields.required "matrix" : Option (List (Row Float))) | none
    return ⟨xRow, yRow, wRow⟩

instance : Stored RuleOption where
  write o := .record
    [("rule_set_index", .of o.ruleSetIndex), ("rule_number", .of o.ruleNumber),
      ("option_number", .of o.optionNumber), ("nodes", .of o.nodes), ("arcs", .of o.arcs),
      ("hyperarcs", .of o.hyperarcs), ("confluence", .of o.confluence),
      ("global_label_start", .of o.globalLabelStart),
      ("position_transform", .of o.positionTransform)]
  read? d := do
    let fields ← d.fields?
      ["rule_set_index", "rule_number", "option_number", "nodes", "arcs", "hyperarcs",
        "confluence", "global_label_start", "position_transform"]
    return {
      ruleSetIndex := ← fields.required "rule_set_index"
      ruleNumber := ← fields.required "rule_number"
      optionNumber := ← fields.required "option_number"
      nodes := ← fields.required "nodes"
      arcs := ← fields.required "arcs"
      hyperarcs := ← fields.required "hyperarcs"
      confluence := ascending (← fields.required "confluence")
      globalLabelStart := ← fields.optional "global_label_start"
      positionTransform := ← fields.required "position_transform" }

instance : Stored RecipeStep where
  write s := .record
    [("rule_set_index", .of s.ruleSetIndex), ("rule_number", .of s.ruleNumber),
      ("option_number", .of s.optionNumber), ("rule_name", .of s.ruleName),
      ("nodes", .of s.nodes), ("arcs", .of s.arcs), ("hyperarcs", .of s.hyperarcs)]
  read? d := do
    let fields ← d.fields?
      ["rule_set_index", "rule_number", "option_number", "rule_name", "nodes", "arcs", "hyperarcs"]
    return {
      ruleSetIndex := ← fields.required "rule_set_index"
      ruleNumber := ← fields.required "rule_number"
      optionNumber := ← fields.required "option_number"
      ruleName := ← fields.required "rule_name"
      nodes := ← fields.required "nodes"
      arcs := ← fields.required "arcs"
      hyperarcs := ← fields.required "hyperarcs" }

instance : Stored Candidate where
  write c := .record
    [("graph", .of c.graph), ("recipe", .of c.recipe), ("generation", .of c.generation),
      ("performance", .of c.performance)]
  read? d := do
    let fields ← d.fields? ["graph", "recipe", "generation", "performance"]
    return {
      graph := ← fields.required "graph"
      recipe := ← fields.required "recipe"
      generation := ← fields.required "generation"
      performance := ← fields.required "performance" }

instance : Stored RuleSet where
  write s := .record
    [("name", .of s.name), ("index", .of s.index), ("rules", .of s.rules), ("limits", .of s.limits)]
  read? d := do
    let fields ← d.fields? ["name", "index", "rules", "limits"]
    return {
      name := ← fields.required "name"
      index := ← fields.required "index"
      rules := ← fields.required "rules"
      limits := ← fields.required "limits" }

instance : Stored ArcEnd where
  write e := .text e.word
  read? d := do
    match ← d.word? with
    | "From" => return .source
    | "To" => return .target
    | _ => none

instance : Stored Severity where
  write
    | .info => .text "Info"
    | .warning => .text "Warning"
  read? d := do
    match ← d.word? with
    | "Info" => return .info
    | "Warning" => return .warning
    | _ => none

instance : Stored RecognitionStatus where
  write
    | .complete => .text "Complete"
    | .cancelled => .text "Cancelled"
    | .budgetExhausted => .text "BudgetExhausted"
  read? d := do
    match ← d.word? with
    | "Complete" => return .complete
    | "Cancelled" => return .cancelled
    | "BudgetExhausted" => return .budgetExhausted
    | _ => none

/-- A diagnostic is a record with one field, named for the sort of the
diagnostic. What it holds is always a record and never a list. -/
instance : Stored Diagnostic where
  write
    | .danglingEnd arc name freed => .record [("DanglingReattachmentFailure",
      .record [("arc", .of arc), ("name", .of name), ("end", .of freed)])]
    | .conflictSkipped optionNumber => .record [("NonConfluentChoiceSkipped",
      .record [("option_number", .of optionNumber)])]
    | .optionNotApplied optionNumber reason => .record [("OptionNotApplied",
      .record [("option_number", .of optionNumber), ("reason", .of reason)])]
    | .ruleLimitReached ruleSetIndex ruleNumber => .record [("RuleLimitReached",
      .record [("rule_set_index", .of ruleSetIndex), ("rule_number", .of ruleNumber)])]
    | .recognitionIncomplete reason => .record [("RecognitionIncomplete",
      .record [("reason", .of reason)])]
  read?
    | .record [("DanglingReattachmentFailure", .record fields)] => do
      return .danglingEnd (← Fields.required fields "arc") (← Fields.required fields "name")
        (← Fields.required fields "end")
    | .record [("NonConfluentChoiceSkipped", .record fields)] => do
      return .conflictSkipped (← Fields.required fields "option_number")
    | .record [("OptionNotApplied", .record fields)] => do
      return .optionNotApplied (← Fields.required fields "option_number")
        (← Fields.required fields "reason")
    | .record [("RuleLimitReached", .record fields)] => do
      return .ruleLimitReached (← Fields.required fields "rule_set_index")
        (← Fields.required fields "rule_number")
    | .record [("RecognitionIncomplete", .record fields)] => do
      return .recognitionIncomplete (← Fields.required fields "reason")
    | _ => none

/-- A correspondence of texts is stored as its two maps. -/
instance : Stored (Correspondence String String) where
  write c :=
    .record [("left_to_right", .of (NameMap.ofList c.forward)),
      ("right_to_left", .of (NameMap.ofList c.backward))]
  read? d := do
    let fields ← d.fields? ["left_to_right", "right_to_left"]
    let forward : NameMap String ← fields.required "left_to_right"
    let backward : NameMap String ← fields.required "right_to_left"
    return ⟨forward.entries, backward.entries⟩

end GraphGrammar
