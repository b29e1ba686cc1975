import TokenGrammar.Rule

/-!
What can be wrong with the rules of a grammar.
-/

namespace TokenGrammar

inductive GrammarError where
  | duplicateRule (name : String)
  | unresolvedReferences (names : List String)
  | missingRoot (grammar : String)
  | unknownRoot (name : String)
  | danglingRoot (rule : RuleId)
  | danglingDefinition (name : String) (rule : RuleId)
  | danglingRule (rule : RuleId) (child : RuleId)
  | invalidRepeatBounds (rule : RuleId) (min max : Nat)
  | emptyLiteral (rule : RuleId)
  | wordTokenLeaf (rule : RuleId)
  | leftRecursion (rule : String)
  deriving DecidableEq, Repr, Inhabited

namespace GrammarError

def message : GrammarError → String
  | duplicateRule name => "rule `" ++ name ++ "` is defined more than once"
  | unresolvedReferences names => "unresolved rule references: " ++ ", ".intercalate names
  | missingRoot grammar => "grammar `" ++ grammar ++ "` has no root rule"
  | unknownRoot name => "root rule `" ++ name ++ "` is not defined"
  | danglingRoot rule => "root " ++ RuleId.label rule ++ " is not part of this grammar"
  | danglingDefinition name rule =>
    "rule `" ++ name ++ "` is defined as " ++ RuleId.label rule ++ ", which is not part of this grammar"
  | danglingRule rule child =>
    "rule " ++ RuleId.label rule ++ " refers to " ++ RuleId.label child ++
      ", which is not part of this grammar"
  | invalidRepeatBounds rule min max =>
    "repeat " ++ RuleId.label rule ++ " allows at most " ++ max.repr ++ " but at least " ++ min.repr ++
      " repetitions"
  | emptyLiteral rule => "literal " ++ RuleId.label rule ++ " is empty"
  | wordTokenLeaf rule =>
    "token leaf " ++ RuleId.label rule ++ " matches words; use a literal or a character class"
  | leftRecursion rule => "rule `" ++ rule ++ "` can reach itself without consuming input"

end GrammarError

end TokenGrammar
