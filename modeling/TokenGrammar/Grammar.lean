import TokenGrammar.Match

/-!
A grammar: the rules of a language, the rule with which a document starts, the settings with which its
documents are cut into tokens, and the file extensions by which they are known.
-/

namespace TokenGrammar

structure Grammar where
  name : String
  extensions : List String
  config : Config
  arena : Arena
  definitions : Definitions
  root : RuleId
  deriving DecidableEq, Repr

def bareExtension (extension : String) : List Char :=
  match extension.toList with
  | '.' :: rest => rest
  | chars => chars

def normalExtension (extension : String) : String :=
  String.ofList ((bareExtension extension).map Char.toLower)

def equalIgnoringCase (a b : List Char) : Bool :=
  a.map Char.toLower = b.map Char.toLower

namespace Grammar

def hasExtension (grammar : Grammar) (extension : String) : Bool :=
  grammar.extensions.any fun known => equalIgnoringCase known.toList (bareExtension extension)

def rule? (grammar : Grammar) (name : String) : Option RuleId :=
  grammar.definitions.lookup name

def unreachableNames (grammar : Grammar) : List String :=
  grammar.arena.unreachableNames grammar.definitions grammar.root

def tokenizer (grammar : Grammar) (source : Source) : Tokenizer :=
  .ofSource grammar.config source

def matchStream (grammar : Grammar) (t : Tokenizer) : Attempt :=
  grammar.arena.matchRule grammar.root (t.configure grammar.config)

def matchNamed (grammar : Grammar) (name : String) (t : Tokenizer) : Attempt :=
  match grammar.rule? name with
  | none => (.error (.unknownRule grammar.name name), t)
  | some id => grammar.arena.matchRule id (t.configure grammar.config)

def accepts (grammar : Grammar) (text : String) : Except MatchError Bool :=
  (grammar.matchStream (grammar.tokenizer (.ofText text))).1

end Grammar

end TokenGrammar
