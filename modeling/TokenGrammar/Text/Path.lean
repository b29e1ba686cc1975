/-!
Paths with slashes between their components. Empty components and single dots do not count.
-/

namespace TokenGrammar.Text

def pathComponents (path : List Char) : List (List Char) :=
  go [] path
where
  go (component : List Char) : List Char → List (List Char)
    | [] => [component.reverse]
    | c :: path => if c = '/' then component.reverse :: go [] path else go (c :: component) path

def fileName? (path : List Char) : Option (List Char) :=
  match ((pathComponents path).filter fun name => name ≠ [] && name ≠ ['.']).getLast? with
  | some name => if name = ['.', '.'] then none else some name
  | none => none

/-- What follows the last dot of a file name, unless that dot is its first character. -/
def nameExtension? (name : List Char) : Option (List Char) :=
  let after := (name.reverse.takeWhile (· ≠ '.')).reverse
  let stem := name.take (name.length - after.length - 1)
  if after.length = name.length || stem.isEmpty then none else some after

def pathExtension? (path : String) : Option String :=
  ((fileName? path.toList).bind nameExtension?).map String.ofList

end TokenGrammar.Text
