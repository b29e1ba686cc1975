import TokenGrammar.Text.ExtendingMark
import TokenGrammar.Text.Printable

/-!
Escaped text: line breaks, tabs, the null character, quotes and backslashes are written with a
backslash, and a character that cannot be shown is written as its code point in braces.
-/

namespace TokenGrammar.Text

structure EscapeStyle where
  singleQuote : Bool
  everyMark : Bool

-- For text inside a sentence: both quotes are escaped, a mark stays with the character before it.
def EscapeStyle.message : EscapeStyle := ⟨true, false⟩

-- For text between double quotes: single quotes stay, and every mark is escaped.
def EscapeStyle.listing : EscapeStyle := ⟨false, true⟩

def codePointEscape (c : Char) : List Char :=
  ['\\', 'u', '\x7b'] ++ Nat.toDigits 16 c.toNat ++ ['\x7d']

def escapeChar (style : EscapeStyle) (opening : Bool) (c : Char) : List Char :=
  if c = '\x00' then ['\\', '0']
  else if c = '\t' then ['\\', 't']
  else if c = '\r' then ['\\', 'r']
  else if c = '\n' then ['\\', 'n']
  else if c = '\\' || c = '"' || (c = '\'' && style.singleQuote) then ['\\', c]
  else if isExtendingMark c && (opening || style.everyMark) then codePointEscape c
  else if isPrintable c then [c]
  else codePointEscape c

def escape (style : EscapeStyle) : List Char → List Char
  | [] => []
  | c :: text => escapeChar style true c ++ text.flatMap (escapeChar style false)

def quoted (text : String) : String :=
  String.ofList ('"' :: escape .listing text.toList ++ ['"'])

def escaped (text : String) : String :=
  String.ofList (escape .message text.toList)

end TokenGrammar.Text
