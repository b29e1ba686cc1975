import TokenGrammar.Rule.Nullable

/-!
Left recursion: a rule that comes back to itself before anything has been taken off the token stream
would never finish. Such rules are the cycles of the graph that leads from each rule to the rules it may
enter first.
-/

namespace TokenGrammar

/-- The children up to the first that is not nullable, that one included. -/
def Rule.leading (nullable : RuleId → Bool) : List RuleId → List RuleId
  | [] => []
  | child :: children => child :: if nullable child then leading nullable children else []

def Rule.leftEdges (nullable : RuleId → Bool) : Rule → List RuleId
  | sequence children => leading nullable children
  | repetition _ _ body => leading nullable body
  | choice children => children
  | reference _ target => target.toList
  | _ => []

namespace Arena

def leftGraph (arena : Arena) : Graph :=
  let marks := arena.nullable
  { successors := arena.rules.map (Rule.leftEdges fun id => marks.getD id false) }

/--
The name by which a cycle is reported: that of the first reference on it, or else the first defined name
of one of its rules, or else the place of its first rule.
-/
def cycleName (arena : Arena) (definitions : Definitions) (cycle : List RuleId) : String :=
  match cycle.findSome? fun id => (arena.get? id).bind Rule.referenceName? with
  | some name => name
  | none =>
    match definitions.sorted.find? fun (_, id) => cycle.contains id with
    | some (name, _) => name
    | none => (cycle.head?.map RuleId.label).getD ""

def leftRecursion? (arena : Arena) (definitions : Definitions) : Option String :=
  arena.leftGraph.cycle?.map (arena.cycleName definitions)

end Arena

end TokenGrammar
