import TokenGrammar.Binary64
import TokenGrammar.Text.Escaped

/-!
Tokens: classified pieces of a document.
-/

namespace TokenGrammar

inductive TokenKind where
  | word
  | number
  | newline
  | whitespace
  | lineComment
  | blockComment
  | endOfStream
  | string
  deriving DecidableEq, Repr, Inhabited

namespace TokenKind

def all : List TokenKind :=
  [word, number, newline, whitespace, lineComment, blockComment, endOfStream, string]

def name : TokenKind → String
  | word => "word"
  | number => "number"
  | newline => "newline"
  | whitespace => "whitespace"
  | lineComment => "line comment"
  | blockComment => "block comment"
  | endOfStream => "end of stream"
  | string => "string"

end TokenKind

structure Token where
  kind : TokenKind
  /-- The text as it stands in the document, except that every line break is a line feed. -/
  text : String
  line : Nat
  value : Binary64 := .zero
  deriving DecidableEq, Repr, Inhabited

namespace Token

def endOfStream (line : Nat) : Token :=
  { kind := .endOfStream, text := "", line }

def isEndOfStream (token : Token) : Bool :=
  token.kind = .endOfStream

def description (token : Token) : String :=
  match token.kind with
  | .endOfStream => "end of stream"
  | .newline => "newline"
  | kind => kind.name ++ " `" ++ Text.escaped token.text ++ "`"

end Token

end TokenGrammar
