import TokenGrammar.Graph
import TokenGrammar.Text.Alphabetic
import TokenGrammar.Text.Lowercase
import TokenGrammar.Text.Numeric
import TokenGrammar.Text.Sorted
import TokenGrammar.Tokenizer

/-!
The rules of a grammar. They stand in one table, the arena, and refer to each other by their places in
it, so that a rule may refer to itself. A reference names the rule it stands for and gets its place when
the names are bound.
-/

namespace TokenGrammar

abbrev RuleId := Nat

def RuleId.label (id : RuleId) : String :=
  "#" ++ id.repr

inductive CharClass where
  | alphanumeric
  | letter
  | digit
  | exact (c : Char)
  | endOfWord
  deriving DecidableEq, Repr

namespace CharClass

def accepts (charClass : CharClass) (caseSensitive : Bool) : WordRead → Bool
  | .notAWord => false
  | .endOfWord => charClass = endOfWord
  | .char c =>
    match charClass with
    | alphanumeric => Text.isAlphabetic c || Text.isNumeric c
    | letter => Text.isAlphabetic c
    | digit => c.isDigit
    | exact expected =>
      c = expected || (!caseSensitive && Text.lowercase c = Text.lowercase expected)
    | endOfWord => false

def description : CharClass → String
  | alphanumeric => "alphanumeric"
  | letter => "letter"
  | digit => "digit"
  | exact c => "`" ++ c.toString ++ "`"
  | endOfWord => "end of word"

end CharClass

inductive Rule where
  | sequence (children : List RuleId)
  | choice (children : List RuleId)
  | repetition (min : Nat) (max : Option Nat) (body : List RuleId)
  | literal (word : String)
  | charClass (test : CharClass)
  | token (kind : TokenKind)
  | reference (name : String) (target : Option RuleId)
  deriving DecidableEq, Repr, Inhabited

namespace Rule

/-- The rules of which a rule is made up. A reference has none; it stands for its target. -/
def children : Rule → List RuleId
  | sequence children => children
  | choice children => children
  | repetition _ _ body => body
  | _ => []

def kindName : Rule → String
  | sequence _ => "sequence"
  | choice _ => "choice"
  | repetition _ _ _ => "repeat"
  | literal _ => "literal"
  | charClass _ => "char-class"
  | token _ => "token"
  | reference _ _ => "reference"

def referenceName? : Rule → Option String
  | reference name _ => some name
  | _ => none

def successors : Rule → List RuleId
  | reference _ (some target) => [target]
  | rule => rule.children

end Rule

abbrev Definitions := List (String × RuleId)

namespace Definitions

def insert (definitions : Definitions) (name : String) (rule : RuleId) : Definitions :=
  definitions.filter (·.1 ≠ name) ++ [(name, rule)]

def sorted (definitions : Definitions) : Definitions :=
  Text.sortByName Prod.fst definitions

end Definitions

structure Arena where
  rules : Array Rule := #[]
  deriving DecidableEq, Repr, Inhabited

namespace Arena

def size (arena : Arena) : Nat :=
  arena.rules.size

def get? (arena : Arena) (id : RuleId) : Option Rule :=
  arena.rules[id]?

def contains (arena : Arena) (id : RuleId) : Bool :=
  id < arena.size

def push (arena : Arena) (rule : Rule) : RuleId × Arena :=
  (arena.size, { arena with rules := arena.rules.push rule })

def bind (arena : Arena) (definitions : Definitions) : Arena :=
  { arena with rules := arena.rules.map fun
    | .reference name target => .reference name ((definitions.lookup name).or target)
    | rule => rule }

def missingNames (arena : Arena) (definitions : Definitions) : List String :=
  let names := arena.rules.toList.filterMap Rule.referenceName?
  let missing := names.filter fun name => (definitions.lookup name).isNone
  Text.sortByName id missing.eraseDups

def graph (arena : Arena) : Graph :=
  { successors := arena.rules.map Rule.successors }

def unreachableNames (arena : Arena) (definitions : Definitions) (root : RuleId) : List String :=
  let reached := arena.graph.reachable root
  (definitions.sorted.filter fun (_, id) => !reached.contains id).map Prod.fst

end Arena

end TokenGrammar
