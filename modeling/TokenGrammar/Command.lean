import TokenGrammar.Command.Error
import TokenGrammar.Output
import TokenGrammar.Report

/-!
The commands, as functions of the grammars that are known and of the document.
-/

namespace TokenGrammar.Command

def selectGrammar (registry : Registry) (path : String) (name : Option String) :
    Except CommandError Grammar :=
  match name with
  | some name =>
    match registry.byName? name with
    | some grammar => .ok grammar
    | none => .error (.unknownGrammar name)
  | none =>
    if path = standardInput then .error .grammarRequired
    else
      match registry.byPath? path with
      | some grammar => .ok grammar
      | none => .error (.noGrammarForPath path)

def lexConfig (registry : Registry) (path : String) (name : Option String) :
    Except CommandError Config :=
  match selectGrammar registry path name with
  | .ok grammar => .ok grammar.config
  | .error .grammarRequired => .ok {}
  | .error (.noGrammarForPath _) => .ok {}
  | .error error => .error error

/--
Lists the tokens of a document to a device, and counts them. A token is written before the next one is
read, so that a device without room is reported before a fault further on in the document.
-/
def lex (config : Config) (source : Source) (room : Option Nat) :
    Except CommandError Nat × ByteArray :=
  let listing := Listing.ofSource config source
  match Output.write room listing.text with
  | (.error error, taken) => (.error (.output error), taken)
  | (.ok _, taken) =>
    match listing.error with
    | some error => (.error (.lex error), taken)
    | none => (.ok listing.lines.length, taken)

def check (grammar : Grammar) (source : Source) : Except CommandError Verdict :=
  (grammar.check source).mapError .matching

end TokenGrammar.Command
