import TokenGrammar.Binary64.Shortest
import TokenGrammar.Registry

/-!
What the commands print: the tokens of a document one a line, the verdict on a document, and the grammars
that are known.
-/

namespace TokenGrammar

namespace Token

def listingLine (token : Token) : String :=
  let columns := Text.padLeft 4 token.line.repr ++ "  " ++ Text.padRight 18 token.kind.name ++ " " ++
    Text.quoted token.text
  match token.kind with
  | .number => columns ++ " = " ++ token.value.text ++ "\n"
  | _ => columns ++ "\n"

end Token

structure Listing where
  lines : List String
  error : Option LexError
  deriving DecidableEq, Repr

namespace Listing

def ofSource (config : Config) (source : Source) : Listing :=
  let read := (Tokenizer.ofSource config source).readAll
  let tokens := read.tokens.filter fun token => !token.isEndOfStream
  { lines := tokens.map Token.listingLine, error := read.error }

def text (listing : Listing) : String :=
  String.join listing.lines

end Listing

inductive Verdict where
  | wellFormed
  | rejected (line : Nat)
  deriving DecidableEq, Repr

def standardInput : String := "-"

namespace Verdict

def report (path : String) (verdict : Verdict) : String :=
  let name := if path = standardInput then "<stdin>" else path
  match verdict with
  | wellFormed => name ++ ": ok\n"
  | rejected line => name ++ ": document is not well-formed at line " ++ line.repr ++ "\n"

end Verdict

namespace Grammar

def summary (grammar : Grammar) : String :=
  let extensions := " ".intercalate (grammar.extensions.map ("." ++ ·))
  let unreachable := grammar.unreachableNames
  Text.padRight 12 grammar.name ++ " " ++ extensions ++ "\n" ++
    if unreachable.isEmpty then "" else "  unreachable rules: " ++ ", ".intercalate unreachable ++ "\n"

def check (grammar : Grammar) (source : Source) : Except MatchError Verdict :=
  match grammar.matchStream (grammar.tokenizer source) with
  | (.error error, _) => .error error
  | (.ok true, _) => .ok .wellFormed
  | (.ok false, t) => .ok (.rejected t.currentLine)

end Grammar

def Registry.summary (registry : Registry) : String :=
  String.join (registry.grammars.map Grammar.summary)

end TokenGrammar
