import TokenGrammar.Grammar.Error
import TokenGrammar.Match

/-!
Why a command failed. That a document is rejected is no failure.
-/

namespace TokenGrammar

inductive CommandError where
  | input (path : String) (error : DeviceError)
  | unknownGrammar (name : String)
  | noGrammarForPath (path : String)
  | grammarRequired
  | grammar (error : GrammarError)
  | matching (error : MatchError)
  | lex (error : LexError)
  | output (error : DeviceError)
  deriving DecidableEq, Repr, Inhabited

namespace CommandError

def message : CommandError → String
  | input path error => "cannot read '" ++ path ++ "': " ++ error.message
  | unknownGrammar name => "no grammar named `" ++ name ++ "`"
  | noGrammarForPath path => "no grammar handles '" ++ path ++ "'; pass --grammar"
  | grammarRequired => "reading standard input needs --grammar"
  | grammar error => "built-in grammar is defective: " ++ error.message
  | matching error => error.message
  | lex error => error.message
  | output error => "cannot write output: " ++ error.message

end CommandError

end TokenGrammar
