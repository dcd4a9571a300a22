import GraphGrammar.Graph.Element

/-!
# Conditions on matched elements

Each element of a rule's left-hand side may carry a condition on the host
elements it can be matched with. Part of it is common to all kinds: how labels
are compared, labels that must be absent, tests on variables, and whether the
element is *negative*, that is, must not be there. Nodes, arcs and hyperarcs
add tests of their own.

`Condition.admits` is the common test. It looks at attributes only, never at
the surroundings of an element.
-/

namespace GraphGrammar

/-- How the labels of a pattern are compared with those of a host element. -/
inductive LabelMatch where
  /-- The host element has every label of the pattern. -/
  | subset
  /-- The host element has the labels of the pattern and no other. -/
  | exact
  /-- The host element has a label of the pattern, unless the pattern has
  none. -/
  | any
deriving DecidableEq, Repr, Inhabited

/-- Whether the labels of a host element match those of a pattern. -/
def LabelMatch.matches : LabelMatch → LabelSet → LabelSet → Bool
  | subset, pattern, host => host.containsAll pattern
  | exact, pattern, host => host.sameLabels pattern
  | any, pattern, host => pattern.isEmpty || host.containsAny pattern

/-- The comparisons a variable can be put to. -/
inductive Comparison where
  | less
  | lessOrEqual
  | equal
  | notEqual
  | greaterOrEqual
  | greater
deriving DecidableEq, Repr

/-- A test of one variable against a number. -/
structure VariableConstraint where
  index : Nat
  comparison : Comparison
  value : Float
  /-- The slack of comparisons that are not strict. -/
  tolerance : Float := 1e-9
deriving BEq

/-- Whether the variables pass a test. A variable that is missing never
does. -/
def VariableConstraint.holds (c : VariableConstraint) (values : List Float) : Bool :=
  match values[c.index]? with
  | none => false
  | some v =>
    match c.comparison with
    | .less => v < c.value
    | .lessOrEqual => v ≤ c.value + c.tolerance
    | .equal => (v - c.value).abs ≤ c.tolerance
    | .notEqual => (v - c.value).abs > c.tolerance
    | .greaterOrEqual => v ≥ c.value - c.tolerance
    | .greater => v > c.value

/-- The part of a condition that is common to all kinds of elements. -/
structure Condition where
  labelMatch : LabelMatch := .subset
  /-- Labels that the host element must not have. -/
  negateLabels : LabelSet := .empty
  /-- The element must not be there. -/
  negative : Bool := false
  variableConstraints : List VariableConstraint := []
deriving BEq

/-- A condition on the images of a node. -/
structure NodeCondition extends Condition where
  /-- The image has as many arc ends and hyperarcs as the node, and no
  more. -/
  strictDegree : Bool := false
  /-- The image has the type tag of the node. -/
  restrictToType : Bool := false
deriving BEq

/-- The condition that says nothing. -/
instance : Inhabited NodeCondition := ⟨{}⟩

/-- A condition on the images of an arc. -/
structure ArcCondition extends Condition where
  /-- The direction flags of the image are those of the arc. -/
  directionIsEqual : Bool := false
  /-- A dangling end is matched by a dangling end only. -/
  danglingMeansDangling : Bool := false
deriving BEq

/-- The condition that says nothing. -/
instance : Inhabited ArcCondition := ⟨{}⟩

/-- A condition on the images of a hyperarc. -/
structure HyperArcCondition extends Condition where
  /-- The image has as many members as the hyperarc. -/
  strictMemberCount : Bool := false
deriving BEq

/-- The condition that says nothing. -/
instance : Inhabited HyperArcCondition := ⟨{}⟩

/-- Whether the attributes of a host element pass the common part of a
condition on the images of a pattern element. -/
def Condition.admits (c : Condition) (pattern host : Attributes) : Bool :=
  c.labelMatch.matches pattern.labels host.labels
    && !host.labels.containsAny c.negateLabels
    && c.variableConstraints.all (·.holds host.values)

end GraphGrammar
