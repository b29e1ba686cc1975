import TokenGrammar.Grammar
import TokenGrammar.Grammar.Error
import TokenGrammar.Rule.LeftRecursion

/-!
Putting a grammar together. Rules are added one by one, and each gets the next place in the arena; names
are given to rules, and one rule is made the root. `Builder.build` checks what has been put together: the
root, the definitions, the rules one by one, the references and left recursion, in this order, and the
first defect is reported.
-/

namespace TokenGrammar

inductive Root where
  | id (rule : RuleId)
  | named (name : String)
  deriving DecidableEq, Repr

structure Builder where
  name : String
  extensions : List String := []
  config : Config := {}
  arena : Arena := {}
  definitions : Definitions := []
  root : Option Root := none
  deriving DecidableEq, Repr

abbrev Build := StateT Builder (Except GrammarError)

namespace Build

def extension (extension : String) : Build Unit :=
  modify fun b =>
    let extension := normalExtension extension
    if b.extensions.contains extension then b
    else { b with extensions := b.extensions ++ [extension] }

def config (config : Config) : Build Unit :=
  modify fun b => { b with config }

def rule (rule : Rule) : Build RuleId :=
  modifyGet fun b =>
    let (id, arena) := b.arena.push rule
    (id, { b with arena })

def sequence (children : List RuleId) : Build RuleId :=
  rule (.sequence children)

def choice (children : List RuleId) : Build RuleId :=
  rule (.choice children)

def repetition (min : Nat) (max : Option Nat) (body : List RuleId) : Build RuleId :=
  rule (.repetition min max body)

def optional (child : RuleId) : Build RuleId :=
  repetition 0 (some 1) [child]

def zeroOrMore (child : RuleId) : Build RuleId :=
  repetition 0 none [child]

def oneOrMore (child : RuleId) : Build RuleId :=
  repetition 1 none [child]

def literal (word : String) : Build RuleId :=
  rule (.literal word)

def charClass (test : CharClass) : Build RuleId :=
  rule (.charClass test)

def token (kind : TokenKind) : Build RuleId :=
  rule (.token kind)

def reference (name : String) : Build RuleId :=
  rule (.reference name none)

def identifier : Build RuleId := do
  let first ← charClass .letter
  let alphanumeric ← charClass .alphanumeric
  let underscore ← charClass (.exact '_')
  let other ← choice [alphanumeric, underscore]
  let others ← zeroOrMore other
  sequence [first, others]

def define (name : String) (rule : RuleId) : Build Unit := do
  let b ← get
  if (b.definitions.lookup name).isSome then throw (.duplicateRule name)
  set { b with definitions := b.definitions ++ [(name, rule)] }

def root (rule : RuleId) : Build Unit :=
  modify fun b => { b with root := some (.id rule) }

def rootNamed (name : String) : Build Unit :=
  modify fun b => { b with root := some (.named name) }

end Build

namespace Arena

def defect? (arena : Arena) (id : RuleId) (rule : Rule) : Option GrammarError :=
  match rule.children.find? fun child => !arena.contains child with
  | some child => some (.danglingRule id child)
  | none =>
    match rule with
    | .repetition min (some max) _ => if max < min then some (.invalidRepeatBounds id min max) else none
    | .literal word => if word = "" then some (.emptyLiteral id) else none
    | .token .word => some (.wordTokenLeaf id)
    | _ => none

def firstDefect? (arena : Arena) : Option GrammarError :=
  arena.rules.toList.zipIdx.findSome? fun (rule, id) => arena.defect? id rule

def danglingDefinition? (arena : Arena) (definitions : Definitions) : Option GrammarError :=
  (definitions.sorted.find? fun (_, id) => !arena.contains id).map fun (name, id) =>
    .danglingDefinition name id

def resolve (arena : Arena) (definitions : Definitions) : Except GrammarError Unit × Arena :=
  let missing := arena.missingNames definitions
  (if missing.isEmpty then .ok () else .error (.unresolvedReferences missing), arena.bind definitions)

end Arena

namespace Builder

def rootRule (b : Builder) : Except GrammarError RuleId := do
  let id ← match b.root with
    | none => throw (.missingRoot b.name)
    | some (.id id) => pure id
    | some (.named name) =>
      match b.definitions.lookup name with
      | none => throw (.unknownRoot name)
      | some id => pure id
  if b.arena.contains id then pure id else throw (.danglingRoot id)

def orFail : Option GrammarError → Except GrammarError Unit
  | some error => .error error
  | none => .ok ()

def build (b : Builder) : Except GrammarError Grammar := do
  let root ← b.rootRule
  orFail (b.arena.danglingDefinition? b.definitions)
  orFail b.arena.firstDefect?
  let (resolved, arena) := b.arena.resolve b.definitions
  resolved
  orFail ((arena.leftRecursion? b.definitions).map .leftRecursion)
  return {
    name := b.name
    extensions := b.extensions
    config := b.config
    arena
    definitions := b.definitions
    root }

end Builder

namespace Grammar

def ofSteps (name : String) (steps : Build Unit) : Except GrammarError Grammar := do
  let (_, builder) ← steps.run { name }
  builder.build

end Grammar

end TokenGrammar
