/-!
Text brought to a width, counted in characters. A text that is already as wide stays as it is.
-/

namespace TokenGrammar.Text

def fill (n : Nat) (c : Char) : String :=
  String.ofList (List.replicate n c)

def padRight (width : Nat) (text : String) : String :=
  text ++ fill (width - text.length) ' '

def padLeft (width : Nat) (text : String) : String :=
  fill (width - text.length) ' ' ++ text

def center (width : Nat) (c : Char) (text : String) : String :=
  let space := width - text.length
  fill (space / 2) c ++ text ++ fill (space - space / 2) c

def truncate (n : Nat) (text : String) : String :=
  String.ofList (text.toList.take n)

end TokenGrammar.Text
