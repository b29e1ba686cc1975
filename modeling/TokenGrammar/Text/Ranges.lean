/-!
Sorted tables of code point ranges, the form in which the character properties of this library are
kept.
-/

namespace TokenGrammar.Text

/-- A set of code points as ascending, disjoint ranges; both ends belong to a range. -/
abbrev Ranges := List (Nat × Nat)

def Ranges.contains : Ranges → Nat → Bool
  | [], _ => false
  | (first, last) :: ranges, n => if n < first then false else n ≤ last || Ranges.contains ranges n

end TokenGrammar.Text
