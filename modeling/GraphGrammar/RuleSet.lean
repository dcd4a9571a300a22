import GraphGrammar.Confluence
import GraphGrammar.Recognition.Basic

/-!
# Rule sets

A rule set is a list of rules that are recognized together. Its options are
numbered across all rules, carry the number of the rule that they belong to,
and know which of the others they are confluent with. A rule may have a limit
on how often it is applied in a run.
-/

namespace GraphGrammar

/-- Rules that are recognized together. -/
structure RuleSet where
  name : String := ""
  /-- The number that the options of the set carry. -/
  index : Nat := 0
  rules : List GrammarRule := []
  /-- How often each rule may be applied in a run; without limit if absent. -/
  limits : List (Option Nat) := []

namespace RuleSet

/-- The set with one more rule. -/
def add (s : RuleSet) (rule : GrammarRule) (limit : Option Nat := none) : RuleSet :=
  { s with rules := s.rules ++ [rule], limits := s.limits ++ [limit] }

/-- A rule by number. -/
def rule? (s : RuleSet) (number : Nat) : Option GrammarRule := s.rules[number]?

/-- The limit on the applications of a rule. -/
def limit? (s : RuleSet) (number : Nat) : Option Nat := (s.limits[number]?).join

/-- The number of rules. -/
def size (s : RuleSet) : Nat := s.rules.length

/-- Recognizes one rule after another, up to the first one that is not
complete, and puts the options behind those found so far. -/
def recognizeFrom (index : Nat) (host : Graph) (limits : Limits) :
    List (GrammarRule × Nat) → Recognition → Recognition
  | [], sofar => sofar
  | (rule, ruleNumber) :: rest, sofar =>
    let found := recognize host rule limits
    let next : Recognition :=
      { options := sofar.options ++
          found.options.map ({ · with ruleSetIndex := index, ruleNumber })
        status := found.status
        steps := sofar.steps + found.steps }
    if found.isComplete then recognizeFrom index host limits rest next else next

/-- The options of the rules that are enabled, numbered across these rules and
with their confluence. -/
def recognizeWhere (s : RuleSet) (host : Graph) (limits : Limits) (enabled : Nat → Bool) :
    Recognition :=
  let rules := s.rules.zipIdx.filter fun (_, ruleNumber) => enabled ruleNumber
  let found := recognizeFrom s.index host limits rules {}
  { found with options := assignConfluence (numberOptions found.options) }

/-- The options of all rules. -/
def recognize (s : RuleSet) (host : Graph) (limits : Limits) : Recognition :=
  s.recognizeWhere host limits fun _ => true

end RuleSet

end GraphGrammar
