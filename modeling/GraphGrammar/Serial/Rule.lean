import GraphGrammar.Rule.Draft
import GraphGrammar.Serial.Graph

/-!
# Stored rules

A rule is stored as a draft, its context given, and built when it is read.
Every field of a draft and of a condition may be left out; constraints on
variables and embedding rules are stored whole.

The words that stand for the values of an enumeration are spelled as they are here and in no
other way. A rule that is read has passed every check that a rule built by hand has to pass.
-/

namespace GraphGrammar

instance : Stored LabelMatch where
  write
    | .subset => .text "Subset"
    | .exact => .text "Exact"
    | .any => .text "Any"
  read? d := do
    match ← d.word? with
    | "Subset" => return .subset
    | "Exact" => return .exact
    | "Any" => return .any
    | _ => none

instance : Stored Comparison where
  write
    | .less => .text "Less"
    | .lessOrEqual => .text "LessOrEqual"
    | .equal => .text "Equal"
    | .notEqual => .text "NotEqual"
    | .greaterOrEqual => .text "GreaterOrEqual"
    | .greater => .text "Greater"
  read? d := do
    match ← d.word? with
    | "Less" => return .less
    | "LessOrEqual" => return .lessOrEqual
    | "Equal" => return .equal
    | "NotEqual" => return .notEqual
    | "GreaterOrEqual" => return .greaterOrEqual
    | "Greater" => return .greater
    | _ => none

instance : Stored ArcDirection where
  write
    | .any => .text "Any"
    | .into => .text "Into"
    | .outOf => .text "OutOf"
  read? d := do
    match ← d.word? with
    | "Any" => return .any
    | "Into" => return .into
    | "OutOf" => return .outOf
    | _ => none

instance : Stored VariableConstraint where
  write c := .record
    [("index", .of c.index), ("comparison", .of c.comparison), ("value", .of c.value),
      ("tolerance", .of c.tolerance)]
  read? d := do
    let fields ← d.fields? ["index", "comparison", "value", "tolerance"]
    return {
      index := ← fields.required "index"
      comparison := ← fields.required "comparison"
      value := ← fields.required "value"
      tolerance := ← fields.required "tolerance" }

instance : Stored EmbeddingRule where
  write e := .record
    [("free_arc_labels", .of e.arcLabels), ("free_arc_negabels", .of e.arcNegateLabels),
      ("neighbor_node_labels", .of e.neighborLabels),
      ("neighbor_node_negabels", .of e.neighborNegateLabels), ("l_node_name", .of e.lNode),
      ("original_direction", .of e.oldDirection), ("r_node_name", .of e.rNode),
      ("new_direction", .of e.newDirection), ("allow_arc_duplication", .of e.allowDuplication)]
  read? d := do
    let fields ← d.fields?
      ["free_arc_labels", "free_arc_negabels", "neighbor_node_labels", "neighbor_node_negabels",
        "l_node_name", "original_direction", "r_node_name", "new_direction",
        "allow_arc_duplication"]
    return {
      arcLabels := ← fields.required "free_arc_labels"
      arcNegateLabels := ← fields.required "free_arc_negabels"
      neighborLabels := ← fields.required "neighbor_node_labels"
      neighborNegateLabels := ← fields.required "neighbor_node_negabels"
      lNode := ← fields.optional "l_node_name"
      oldDirection := ← fields.required "original_direction"
      rNode := ← fields.required "r_node_name"
      newDirection := ← fields.required "new_direction"
      allowDuplication := ← fields.required "allow_arc_duplication" }

/-! ## Conditions

The three sorts of conditions share their first and their last fields. Between them are the tests
that each sort has for itself. -/

namespace Condition

/-- Reads the part that is common to all conditions. -/
def ofFields? (fields : Fields) : Option Condition := do
  return {
    labelMatch := ← fields.getD "label_match" .subset
    negateLabels := ← fields.getD "negate_labels" .empty
    negative := ← fields.getD "not_exist" false
    variableConstraints := ← fields.getD "variable_constraints" [] }

/-- A condition as a record in which the tests of the kind stand after the
labels. -/
def write (c : Condition) (tests : Fields) : Document :=
  .record ([("label_match", .of c.labelMatch), ("negate_labels", .of c.negateLabels)] ++ tests
    ++ [("not_exist", .of c.negative), ("variable_constraints", .of c.variableConstraints)])

/-- The fields of a condition, given the names of the tests of the kind. -/
def fields? (tests : List String) (d : Document) : Option Fields :=
  d.someFields? (["label_match", "negate_labels"] ++ tests ++ ["not_exist", "variable_constraints"])

end Condition

instance : Stored NodeCondition where
  write c := c.toCondition.write
    [("strict_degree", .of c.strictDegree), ("restrict_to_type", .of c.restrictToType)]
  read? d := do
    let fields ← Condition.fields? ["strict_degree", "restrict_to_type"] d
    return { ← Condition.ofFields? fields with
      strictDegree := ← fields.getD "strict_degree" false
      restrictToType := ← fields.getD "restrict_to_type" false }

instance : Stored ArcCondition where
  write c := c.toCondition.write
    [("direction_is_equal", .of c.directionIsEqual),
      ("null_means_null", .of c.danglingMeansDangling)]
  read? d := do
    let fields ← Condition.fields? ["direction_is_equal", "null_means_null"] d
    return { ← Condition.ofFields? fields with
      directionIsEqual := ← fields.getD "direction_is_equal" false
      danglingMeansDangling := ← fields.getD "null_means_null" false }

instance : Stored HyperArcCondition where
  write c := c.toCondition.write [("strict_node_count", .of c.strictMemberCount)]
  read? d := do
    let fields ← Condition.fields? ["strict_node_count"] d
    return { ← Condition.ofFields? fields with
      strictMemberCount := ← fields.getD "strict_node_count" false }

/-! ## Drafts and rules

A draft may be read with any of its parts missing. If it is the context, one is derived when the
rule is built; for any other part there is a default. -/

namespace RuleSettings

/-- Reads the settings of a rule. -/
def ofFields? (fields : Fields) : Option RuleSettings := do
  return {
    negateGlobalLabels := ← fields.getD "negate_global_labels" .empty
    containsAllGlobalLabels := ← fields.getD "contains_all_global_labels" false
    orderedGlobalLabels := ← fields.getD "ordered_global_labels" false
    globalVariableConstraints := ← fields.getD "global_variable_constraints" []
    spanning := ← fields.getD "spanning" false
    induced := ← fields.getD "induced" false
    transformNodePositions := ← fields.getD "transform_node_positions" false
    embeddingRules := ← fields.getD "embedding_rules" [] }

end RuleSettings

/-- The names of the fields of a draft. -/
def RuleDraft.fieldNames : List String :=
  ["name", "l", "k", "r", "node_conditions", "arc_conditions", "hyperarc_conditions",
    "negate_global_labels", "contains_all_global_labels", "ordered_global_labels",
    "global_variable_constraints", "spanning", "induced", "transform_node_positions",
    "embedding_rules"]

instance : Stored RuleDraft where
  write d := .record
    [("name", .of d.name), ("l", .of d.l), ("k", .of d.k), ("r", .of d.r),
      ("node_conditions", .of d.nodeConditions), ("arc_conditions", .of d.arcConditions),
      ("hyperarc_conditions", .of d.hyperarcConditions),
      ("negate_global_labels", .of d.negateGlobalLabels),
      ("contains_all_global_labels", .of d.containsAllGlobalLabels),
      ("ordered_global_labels", .of d.orderedGlobalLabels),
      ("global_variable_constraints", .of d.globalVariableConstraints),
      ("spanning", .of d.spanning), ("induced", .of d.induced),
      ("transform_node_positions", .of d.transformNodePositions),
      ("embedding_rules", .of d.embeddingRules)]
  read? d := do
    let fields ← d.someFields? RuleDraft.fieldNames
    return { ← RuleSettings.ofFields? fields with
      name := ← fields.getD "name" ""
      l := ← fields.getD "l" .empty
      k := ← fields.optional "k"
      r := ← fields.getD "r" .empty
      nodeConditions := ← fields.getD "node_conditions" .empty
      arcConditions := ← fields.getD "arc_conditions" .empty
      hyperarcConditions := ← fields.getD "hyperarc_conditions" .empty }

/-- A rule is stored as the draft that it can be built from. -/
instance : Stored GrammarRule where
  write rule := .of rule.toDraft
  read? d := do
    let draft : RuleDraft ← Stored.read? d
    draft.build.toOption

end GraphGrammar
