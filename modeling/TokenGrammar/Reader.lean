import TokenGrammar.Source

/-!
A reader hands out a source one character at a time and can take back one character: the last one that
was read. Taking back twice takes back once, the end of the stream comes again by itself, and a fault
leaves the last character where it was.
-/

namespace TokenGrammar

structure Reader where
  upcoming : Source
  last : Option Char := none
  deriving DecidableEq, Repr

namespace Reader

def ofSource (source : Source) : Reader :=
  { upcoming := source }

def read (r : Reader) : Except ReadError (Option Char) × Reader :=
  match r.upcoming with
  | [] => (.ok none, { r with last := none })
  | .char c :: rest => (.ok (some c), { upcoming := rest, last := some c })
  | .fault error :: rest => (.error error, { r with upcoming := rest })

def pushBack (r : Reader) : Reader :=
  match r.last with
  | none => r
  | some c => { upcoming := .char c :: r.upcoming }

end Reader

end TokenGrammar
