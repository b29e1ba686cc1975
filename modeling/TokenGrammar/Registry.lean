import TokenGrammar.Grammar.Turtle
import TokenGrammar.Text.Path

/-!
The grammars that are known, in the order in which their names were first registered.
-/

namespace TokenGrammar

structure Registry where
  grammars : List Grammar := []
  deriving DecidableEq, Repr

namespace Registry

def byName? (registry : Registry) (name : String) : Option Grammar :=
  registry.grammars.find? (·.name = name)

/-- Adds a grammar. The first grammar that has its name gives up its place to it and is returned. -/
def register (registry : Registry) (grammar : Grammar) : Option Grammar × Registry :=
  match registry.grammars.findIdx? (·.name = grammar.name) with
  | some slot => (registry.grammars[slot]?, { grammars := registry.grammars.set slot grammar })
  | none => (none, { grammars := registry.grammars ++ [grammar] })

def ofList (grammars : List Grammar) : Registry :=
  grammars.foldl (fun registry grammar => (registry.register grammar).2) {}

def byExtension? (registry : Registry) (extension : String) : Option Grammar :=
  if (bareExtension extension).isEmpty then none
  else registry.grammars.find? (·.hasExtension extension)

def byPath? (registry : Registry) (path : String) : Option Grammar :=
  (Text.pathExtension? path).bind registry.byExtension?

def builtin : Except GrammarError Registry := do
  let turtle ← Grammar.turtle
  return ofList [turtle]

end Registry

end TokenGrammar
