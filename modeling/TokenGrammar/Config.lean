import TokenGrammar.Text.Lowercase

/-!
What sets one language apart from another when its documents are cut into tokens.
-/

namespace TokenGrammar

structure Config where
  whitespace : List Char := [' ', '\t']
  ignoreWhitespace : Bool := true
  lineComment : Option String := none
  blockComment : Option (String × String) := none
  ignoreComments : Bool := true
  quotes : List Char := ['"']
  escape : Option Char := some '\\'
  escaping : Bool := true
  caseSensitive : Bool := true
  numbersAsWords : Bool := false
  parseNumbers : Bool := true
  deriving DecidableEq, Repr, Inhabited

def wordsEqual (caseSensitive : Bool) (text word : String) : Bool :=
  if caseSensitive then text = word
  else Text.lowercaseAll text.toList = Text.lowercaseAll word.toList

namespace Config

def isWhitespace (config : Config) (c : Char) : Bool :=
  config.whitespace.contains c

def isQuote (config : Config) (c : Char) : Bool :=
  config.quotes.contains c

def activeEscape (config : Config) : Option Char :=
  if config.escaping then config.escape else none

def withLineComment (config : Config) (opener : Option String) : Config :=
  { config with lineComment := opener.filter (· ≠ "") }

def withBlockComment (config : Config) (delimiters : Option (String × String)) : Config :=
  { config with blockComment := delimiters.filter fun (opener, closer) => opener ≠ "" && closer ≠ "" }

end Config

end TokenGrammar
