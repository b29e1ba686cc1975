import TokenGrammar.Grammar.Builder

/-!
A small language for a turtle that draws: one command a line, blocks between braces, comments after a
hash sign. Keywords are the same in upper and lower case. A brace is a word, so that there are blanks or
line breaks around it.
-/

namespace TokenGrammar.Grammar

namespace Turtle

def config : Config :=
  Config.withLineComment { caseSensitive := false } (some "#")

def keywords (words : List String) : Build RuleId := do
  let literals ← words.mapM Build.literal
  Build.choice literals

def rules : Build Unit := do
  Build.extension "turtle"
  Build.extension "tt"
  Build.config config

  let identifier ← Build.identifier
  let wordEnd ← Build.charClass .endOfWord
  let name ← Build.sequence [identifier, wordEnd]
  Build.define "name" name

  let verb ← keywords ["forward", "fw", "backward", "bw"]
  let distance ← Build.token .number
  let move ← Build.sequence [verb, distance]
  Build.define "move" move

  let verb ← keywords ["turnleft", "tl", "turnright", "tr", "direction", "dir"]
  let angle ← Build.token .number
  let turn ← Build.sequence [verb, angle]
  Build.define "turn" turn

  let pen ← keywords ["penup", "pu", "pendown", "pd", "clear", "cls", "reset", "center"]
  Build.define "pen" pen

  let verb ← Build.literal "go"
  let x ← Build.token .number
  let y ← Build.token .number
  let go ← Build.sequence [verb, x, y]
  Build.define "go" go

  let verb ← Build.literal "print"
  let text ← Build.token .string
  let number ← Build.token .number
  let value ← Build.choice [text, number]
  let print ← Build.sequence [verb, value]
  Build.define "print" print

  let verb ← Build.literal "repeat"
  let times ← Build.token .number
  let block ← Build.reference "block"
  let repetition ← Build.sequence [verb, times, block]
  Build.define "repeat" repetition

  let verb ← Build.literal "learn"
  let procedure ← Build.reference "name"
  let block ← Build.reference "block"
  let learn ← Build.sequence [verb, procedure, block]
  Build.define "learn" learn

  let procedure ← Build.reference "name"
  let argument ← Build.token .number
  let arguments ← Build.zeroOrMore argument
  let call ← Build.sequence [procedure, arguments]
  Build.define "call" call

  -- A call comes last, because every keyword could be the name of a procedure.
  let forms ← ["move", "turn", "pen", "go", "print", "repeat", "learn", "call"].mapM Build.reference
  let statement ← Build.choice forms
  Build.define "statement" statement

  let newline ← Build.token .newline
  let statement ← Build.reference "statement"
  let line ← Build.choice [newline, statement]
  let body ← Build.zeroOrMore line
  Build.define "body" body

  let opening ← Build.literal "\x7b"
  let body ← Build.reference "body"
  let closing ← Build.literal "\x7d"
  let block ← Build.sequence [opening, body, closing]
  Build.define "block" block

  let body ← Build.reference "body"
  let ending ← Build.token .endOfStream
  let program ← Build.sequence [body, ending]
  Build.define "program" program

  Build.rootNamed "program"

end Turtle

def turtle : Except GrammarError Grammar :=
  Grammar.ofSteps "turtle" Turtle.rules

end TokenGrammar.Grammar
