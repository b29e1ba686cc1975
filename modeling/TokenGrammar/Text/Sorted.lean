/-!
Lists in the order of the names of their elements. Names are in the order of their code points.
-/

namespace TokenGrammar.Text

def insertByName {α : Type} (name : α → String) (a : α) : List α → List α
  | [] => [a]
  | b :: sorted => if name a ≤ name b then a :: b :: sorted else b :: insertByName name a sorted

def sortByName {α : Type} (name : α → String) (elements : List α) : List α :=
  elements.foldr (insertByName name) []

end TokenGrammar.Text
