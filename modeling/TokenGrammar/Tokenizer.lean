import TokenGrammar.LexError
import TokenGrammar.Token.Scan

/-!
A token stream that is read with two heads. One reads tokens and can put back the last token; the other
reads the characters of a word and can take back its last read. The first read of a character fetches a
token, and if it is a word, the word becomes active. Reading a token while a word is active finishes the
word: the characters that are left come as a word of their own. After the end of a word has been read,
the next read of a character goes on to the token that follows.

Every operation returns the tokenizer it leaves behind, after an error too.
-/

namespace TokenGrammar

structure ActiveWord where
  chars : Array Char
  pos : Nat
  line : Nat
  ended : Bool
  deriving DecidableEq, Repr

namespace ActiveWord

def isExhausted (word : ActiveWord) : Bool :=
  word.chars.size ≤ word.pos

def remainder (word : ActiveWord) : Token :=
  { kind := .word, text := String.ofList (word.chars.toList.drop word.pos), line := word.line }

end ActiveWord

inductive WordStep where
  | started
  | advanced
  | atEnd
  | notAWord
  deriving DecidableEq, Repr

inductive WordRead where
  | char (c : Char)
  | endOfWord
  | notAWord
  deriving DecidableEq, Repr

/-- How far a tokenizer has come. Reading the end of the stream is no progress. -/
structure Mark where
  tokens : Nat
  wordPos : Nat
  deriving DecidableEq, Repr

structure Tokenizer where
  config : Config
  cursor : Cursor
  last : Option Token := none
  replay : Bool := false
  word : Option ActiveWord := none
  wordStep : Option WordStep := none
  /-- The tokens that were returned and not put back, without the end of the stream. -/
  tokens : Nat := 0
  deriving DecidableEq, Repr

namespace Tokenizer

def ofSource (config : Config) (source : Source) : Tokenizer :=
  { config, cursor := ⟨source, 1⟩ }

def deliver (t : Tokenizer) (token : Token) : Except LexError Token × Tokenizer :=
  let tokens := if token.isEndOfStream then t.tokens else t.tokens + 1
  (.ok token, { t with last := some token, tokens })

def fetch (t : Tokenizer) : Except LexError Token × Tokenizer :=
  match t.config.scan t.cursor with
  | (.ok token, cursor) => { t with cursor }.deliver token
  | (.error error, cursor) => (.error (.read error), { t with cursor })

def nextToken (t : Tokenizer) : Except LexError Token × Tokenizer :=
  let t := { t with wordStep := none }
  if t.replay then
    { t with replay := false }.deliver (t.last.getD (.endOfStream t.cursor.line))
  else
    match t.word with
    | none => t.fetch
    | some word =>
      let t := { t with word := none }
      if word.isExhausted then t.fetch else t.deliver word.remainder

/--
Puts back the last token, so that it is read again. If that token is the active word, the whole word is
put back.
-/
def pushBack (t : Tokenizer) : Except LexError Unit × Tokenizer :=
  if t.replay then (.error .doublePushBack, t)
  else
    match t.last with
    | none => (.error .nothingToPushBack, t)
    | some token =>
      let tokens := if token.isEndOfStream then t.tokens else t.tokens - 1
      (.ok (), { t with tokens, word := none, wordStep := none, replay := true })

def advance (t : Tokenizer) (word : ActiveWord) : Except LexError WordRead × Tokenizer :=
  match word.chars[word.pos]? with
  | some c =>
    (.ok (.char c), { t with
      word := some { word with pos := word.pos + 1 }
      wordStep := some .advanced })
  | none =>
    (.ok .endOfWord, { t with word := some { word with ended := true }, wordStep := some .atEnd })

def activate (t : Tokenizer) (token : Token) : Except LexError WordRead × Tokenizer :=
  let chars := token.text.toList.toArray
  match chars[0]? with
  | some c =>
    (.ok (.char c), { t with
      word := some { chars, pos := 1, line := token.line, ended := false }
      wordStep := some .started })
  | none =>
    (.ok .endOfWord, { t with
      word := some { chars, pos := 0, line := token.line, ended := true }
      wordStep := some .atEnd })

def enterWord (t : Tokenizer) : Except LexError WordRead × Tokenizer :=
  match t.nextToken with
  | (.error error, t) => (.error error, t)
  | (.ok token, t) =>
    if token.kind = .word then t.activate token
    else
      match t.pushBack with
      | (.error error, t) => (.error error, t)
      | (.ok _, t) => (.ok .notAWord, { t with wordStep := some .notAWord })

def nextWordChar (t : Tokenizer) : Except LexError WordRead × Tokenizer :=
  match t.word with
  | none => t.enterWord
  | some word => if word.ended then { t with word := none }.enterWord else t.advance word

def pushBackWordChar (t : Tokenizer) : Except LexError Unit × Tokenizer :=
  let step := t.wordStep
  let t := { t with wordStep := none }
  match step with
  | none => (.error .doubleWordPushBack, t)
  | some .advanced =>
    (.ok (), { t with word := t.word.map fun word => { word with pos := word.pos - 1 } })
  | some .started => t.pushBack
  | some .atEnd =>
    (.ok (), { t with word := t.word.map fun word => { word with ended := false } })
  | some .notAWord => (.ok (), t)

/-- The line that messages give: where the next token is known, the line on which it starts. -/
def currentLine (t : Tokenizer) : Nat :=
  match t.last with
  | some token => if t.replay then token.line else t.cursor.line
  | none => t.cursor.line

def mark (t : Tokenizer) : Mark :=
  { tokens := t.tokens, wordPos := (t.word.map ActiveWord.pos).getD 0 }

def configure (t : Tokenizer) (config : Config) : Tokenizer :=
  { t with config }

def tokensLeft (t : Tokenizer) : Nat :=
  t.cursor.input.length + (if t.word.isSome then 1 else 0) + (if t.replay then 1 else 0)

theorem deliver_ok {t t' : Tokenizer} {given token : Token} (h : t.deliver given = (.ok token, t')) :
    given = token ∧ t'.tokensLeft = t.tokensLeft := by
  simp only [deliver, Prod.mk.injEq, Except.ok.injEq] at h
  simp [← h.1, ← h.2, tokensLeft]

theorem fetch_ok_tokensLeft_lt {t t' : Tokenizer} {token : Token} (h : t.fetch = (.ok token, t'))
    (hne : token.isEndOfStream = false) : t'.tokensLeft < t.tokensLeft := by
  simp only [fetch] at h
  split at h
  . rename_i given cursor heq
    have hd := deliver_ok h
    have := Config.scan_ok_length_lt heq (by rw [hd.1]; exact hne)
    rw [hd.2]
    simp only [tokensLeft]
    omega
  . simp at h

theorem nextToken_ok_tokensLeft_lt {t t' : Tokenizer} {token : Token}
    (h : t.nextToken = (.ok token, t')) (hne : token.isEndOfStream = false) :
    t'.tokensLeft < t.tokensLeft := by
  simp only [nextToken] at h
  split at h
  . rename_i hr
    rw [(deliver_ok h).2]
    simp [tokensLeft, hr]
  . split at h
    . have := fetch_ok_tokensLeft_lt h hne
      simpa [tokensLeft] using this
    . rename_i word hword
      split at h
      . have := fetch_ok_tokensLeft_lt h hne
        simp only [tokensLeft, hword, Option.isSome_none, Option.isSome_some, Bool.false_eq_true,
          ↓reduceIte] at this ⊢
        omega
      . rw [(deliver_ok h).2]
        simp [tokensLeft, hword]

structure Remainder where
  /-- The tokens, up to the end of the stream or a fault. -/
  tokens : List Token
  error : Option LexError
  after : Tokenizer

def readAll (t : Tokenizer) : Remainder :=
  go [] t
where
  go (read : List Token) (t : Tokenizer) : Remainder :=
    match h : t.nextToken with
    | (.error error, t') => ⟨read.reverse, some error, t'⟩
    | (.ok token, t') =>
      if hne : token.isEndOfStream then ⟨(token :: read).reverse, none, t'⟩
      else
        have := nextToken_ok_tokensLeft_lt h (by simpa using hne)
        go (token :: read) t'
  termination_by t.tokensLeft

end Tokenizer

end TokenGrammar
