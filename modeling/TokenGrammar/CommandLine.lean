import TokenGrammar.Command

/-!
The command line. `CommandLine.plan` says what is to be done for the arguments: either nothing more than
to print something and to exit, or to read one input and to go on from there.
-/

namespace TokenGrammar.CommandLine

structure Outcome where
  exit : UInt8
  stdout : String := ""
  stderr : String := ""
  deriving DecidableEq, Repr

inductive Input where
  | standard
  | file (path : String)
  deriving DecidableEq, Repr

namespace Input

def ofPath (path : String) : Input :=
  if path = standardInput then standard else file path

end Input

inductive Plan where
  | finish (outcome : Outcome)
  | read (input : Input) (resume : Except DeviceError Source → Outcome)

def unlines (lines : List String) : String :=
  String.join (lines.map (· ++ "\n"))

def usage : String :=
  unlines [
    "Tortue - grammar checker for turtle scripts",
    "",
    "Usage: tortue <command> [options]",
    "",
    "Commands:",
    "  lex <file|->       Print the token stream of a document",
    "  check <file|->     Check that a document conforms to its grammar",
    "  grammars           List built-in grammars and their extensions",
    "  help               Show this message",
    "  version            Show version information",
    "",
    "Options:",
    "  -g, --grammar <name>   Use this grammar instead of the file extension",
    "",
    "Set RUST_LOG (e.g. RUST_LOG=tortue_grammar=trace) to trace matching."]

def version : String := "tortue 0.1.0\n"

def inputUsage (command : String) : String :=
  "Usage: tortue " ++ command ++ " <file|-> [--grammar <name>]\n"

def inlineGrammar? (arg : String) : Option String :=
  ("--grammar=".toList.isPrefixOf? arg.toList).map String.ofList

def isPath (arg : String) : Bool :=
  arg = standardInput || arg.toList.head? ≠ some '-'

/--
The path and the name of the grammar in the arguments of a command that reads a document. There has
to be one path; the grammar may be named before or after it, and the last name counts.
-/
def inputArgs (args : List String) : Option (String × Option String) :=
  go none none args
where
  go (path grammar : Option String) : List String → Option (String × Option String)
    | [] => path.map (·, grammar)
    | arg :: args =>
      match inlineGrammar? arg with
      | some name => go path (some name) args
      | none =>
        if arg = "--grammar" || arg = "-g" then
          match args with
          | [] => none
          | name :: args => go path (some name) args
        else if isPath arg && path.isNone then go (some arg) grammar args
        else none

namespace Outcome

def failure (error : CommandError) (printed : String) : Outcome :=
  { exit := 1, stdout := printed, stderr := "error: " ++ error.message ++ "\n" }

def ofExcept : Except CommandError Outcome → Outcome
  | .ok outcome => outcome
  | .error error => failure error ""

end Outcome

namespace Plan

def reading (path : String) (resume : Except CommandError (Source → Outcome)) : Plan :=
  match resume with
  | .error error => .finish (.failure error "")
  | .ok resume => .read (.ofPath path) fun
    | .error error => .failure (.input path error) ""
    | .ok source => resume source

end Plan

def registry : Except CommandError Registry :=
  Registry.builtin.mapError .grammar

def lex (path : String) (grammar : Option String) : Plan :=
  .reading path do
    let config ← Command.lexConfig (← registry) path grammar
    return fun source =>
      let listing := Listing.ofSource config source
      match listing.error with
      | some error => .failure (.lex error) listing.text
      | none => { exit := 0, stdout := listing.text }

def check (path : String) (grammar : Option String) : Plan :=
  .reading path do
    let grammar ← Command.selectGrammar (← registry) path grammar
    return fun source => .ofExcept do
      let verdict ← Command.check grammar source
      return { exit := if verdict = .wellFormed then 0 else 1, stdout := verdict.report path }

def grammars : Plan :=
  .finish (.ofExcept (registry.map fun registry => { exit := 0, stdout := registry.summary }))

def withInput (command : String) (run : String → Option String → Plan) (args : List String) : Plan :=
  match inputArgs args with
  | some (path, grammar) => run path grammar
  | none => .finish { exit := 1, stderr := inputUsage command }

def plan : List String → Plan
  | [] => .finish { exit := 1, stdout := usage }
  | command :: args =>
    match command with
    | "lex" => withInput "lex" lex args
    | "check" => withInput "check" check args
    | "grammars" => grammars
    | "help" | "--help" | "-h" => .finish { exit := 0, stdout := usage }
    | "version" | "--version" | "-V" => .finish { exit := 0, stdout := version }
    | other =>
      .finish { exit := 1, stdout := usage, stderr := "Unknown command: " ++ other ++ "\n\n" }

end TokenGrammar.CommandLine
