import TokenGrammar.Config
import TokenGrammar.Source
import TokenGrammar.Token

/-!
One token off a source, whatever its kind. Every scan splits the source: what the token is made of is
what stands before the cursor that the scan returns. A fault ends a scan, and with it goes all that was
read for the token.
-/

namespace TokenGrammar

structure Cursor where
  input : Source
  line : Nat
  deriving DecidableEq, Repr

inductive CommentStyle where
  | line
  | block (closer : List Char)
  deriving DecidableEq, Repr

inductive Opening where
  | none
  | comment (opener : List Char) (style : CommentStyle) (body : Source)
  | fault (error : ReadError) (rest : Source)
  deriving DecidableEq, Repr

inductive WordStop where
  | goesOn
  | ends
  | fault (error : ReadError) (rest : Source)
  deriving DecidableEq, Repr

abbrev Scan := Except ReadError Token × Cursor

namespace Scan

/--
The token whose last character has been read, unless a fault comes where the next character was
expected.
-/
def finish (token : Token) (rest : Source) (line : Nat) : Scan :=
  match rest with
  | .fault error :: rest => (.error error, ⟨rest, line⟩)
  | rest => (.ok token, ⟨rest, line⟩)

end Scan

namespace Config

-- What opens comments, in the order in which it is tried. An empty opener opens nothing.
def openers (config : Config) : List (List Char × CommentStyle) :=
  let lines := config.lineComment.toList.map fun opener => (opener.toList, .line)
  let blocks := config.blockComment.toList.map fun (opener, closer) =>
    (opener.toList, .block closer.toList)
  (lines ++ blocks).filter fun (opener, _) => !opener.isEmpty

def opening (config : Config) (input : Source) : Opening :=
  go config.openers
where
  go : List (List Char × CommentStyle) → Opening
    | [] => .none
    | (opener, style) :: openers =>
      match input.probe opener with
      | .hit body => .comment opener style body
      | .miss => go openers
      | .fault error rest => .fault error rest

def wordStop (config : Config) (input : Source) : WordStop :=
  match input with
  | [] => .ends
  | .fault error :: rest => .fault error rest
  | .char c :: _ =>
    if Source.isLineBreak c || config.isWhitespace c || config.isQuote c then .ends
    else
      match config.opening input with
      | .none => .goesOn
      | .comment _ _ _ => .ends
      | .fault error rest => .fault error rest

def whitespaceLexeme (config : Config) (cursor : Cursor) : Scan :=
  let (run, rest) := cursor.input.takeRun config.isWhitespace
  Scan.finish { kind := .whitespace, text := String.ofList run, line := cursor.line } rest
    (cursor.line + cursor.input.lineBreaks run.length)

def digitsValue (digits : List Char) : Nat :=
  digits.foldl (fun n c => 10 * n + (c.toNat - '0'.toNat)) 0

-- The longest run of digits, and if a point follows, the point and the longest run of digits after it.
def numeral (input : Source) : List Char × Option (List Char) × Source :=
  let (whole, rest) := input.takeRun Char.isDigit
  match rest with
  | .char '.' :: rest =>
    let (places, rest) := Source.takeRun Char.isDigit rest
    (whole, some places, rest)
  | rest => (whole, none, rest)

def numberLexeme (config : Config) (cursor : Cursor) : Scan :=
  let (whole, places, rest) := numeral cursor.input
  let text := match places with
    | none => whole
    | some places => whole ++ '.' :: places
  let places := places.getD []
  let value := Binary64.ofDecimal (digitsValue (whole ++ places)) places.length
  Scan.finish
    { kind := if config.numbersAsWords then .word else .number
      text := String.ofList text
      line := cursor.line
      value := if config.parseNumbers then value else .zero }
    rest cursor.line

/--
What stands between the opening quote and the quote that closes the string, and the source from there
on. A quote right after the escape character does not close, unless it is the first character.
-/
def stringBody (quote : Char) (escape : Option Char) (input : Source) : List Char × Source :=
  go none [] input
where
  go (previous : Option Char) (taken : List Char) : Source → List Char × Source
    | .char c :: rest =>
      if c = quote && (escape.isNone || previous ≠ escape) then (taken.reverse, .char c :: rest)
      else go (some c) (c :: taken) rest
    | .fault error :: rest => (taken.reverse, .fault error :: rest)
    | [] => (taken.reverse, [])

def stringLexeme (config : Config) (quote : Char) (content : Source) (line : Nat) : Scan :=
  let (body, rest) := stringBody quote config.activeEscape content
  let token : Token :=
    { kind := .string, text := String.ofList (quote :: body ++ [quote]), line }
  let line := line + content.lineBreaks body.length
  match rest with
  | [] => (.ok token, ⟨[], line⟩)
  | .char _ :: rest => (.ok token, ⟨rest, line⟩)
  | .fault error :: rest => (.error error, ⟨rest, line⟩)

def newlineLexeme (c : Char) (rest : Source) (line : Nat) : Scan :=
  let token : Token := { kind := .newline, text := "\n", line }
  if c = '\r' then
    match rest with
    | .char '\n' :: rest => (.ok token, ⟨rest, line + 1⟩)
    | .fault error :: rest => (.error error, ⟨rest, line⟩)
    | rest => (.ok token, ⟨rest, line + 1⟩)
  else (.ok token, ⟨rest, line + 1⟩)

def commentLexeme (opener : List Char) (style : CommentStyle) (body : Source) (line : Nat) : Scan :=
  match style with
  | .line =>
    let (text, rest) := body.takeRun fun c => !Source.isLineBreak c
    Scan.finish { kind := .lineComment, text := String.ofList (opener ++ text), line } rest line
  | .block closer =>
    let (text, rest) := body.takeUntil fun rest => rest.probe closer ≠ .miss
    let token (text : List Char) : Token :=
      { kind := .blockComment, text := String.ofList text, line }
    let after := line + body.lineBreaks text.length
    match rest.probe closer with
    | .hit rest => (.ok (token (opener ++ text ++ closer)), ⟨rest, after⟩)
    | .miss => (.ok (token (opener ++ text)), ⟨rest, after⟩)
    | .fault error rest => (.error error, ⟨rest, after⟩)

def wordLexeme (config : Config) (c : Char) (rest : Source) (line : Nat) : Scan :=
  let (text, rest) := rest.takeUntil fun rest => config.wordStop rest ≠ .goesOn
  match config.wordStop rest with
  | .fault error rest => (.error error, ⟨rest, line⟩)
  | _ => (.ok { kind := .word, text := String.ofList (c :: text), line }, ⟨rest, line⟩)

/--
One token off the source. Its first character decides what it is: whitespace, a number, a string or a
line break, in this order, and failing these a comment if one opens here, or else a word.
-/
def lexeme (config : Config) (cursor : Cursor) : Scan :=
  match cursor.input with
  | [] => (.ok (.endOfStream cursor.line), cursor)
  | .fault error :: rest => (.error error, ⟨rest, cursor.line⟩)
  | .char c :: rest =>
    if config.isWhitespace c then config.whitespaceLexeme cursor
    else if c.isDigit then config.numberLexeme cursor
    else if config.isQuote c then config.stringLexeme c rest cursor.line
    else if Source.isLineBreak c then newlineLexeme c rest cursor.line
    else
      match config.opening cursor.input with
      | .comment opener style body => commentLexeme opener style body cursor.line
      | .fault error rest => (.error error, ⟨rest, cursor.line⟩)
      | .none => config.wordLexeme c rest cursor.line

def ignores (config : Config) : TokenKind → Bool
  | .whitespace => config.ignoreWhitespace
  | .lineComment => config.ignoreComments
  | .blockComment => config.ignoreComments
  | _ => false

end Config

end TokenGrammar
