import TokenGrammar.Rule

/-!
Which rules can match without taking anything off the token stream. Since rules may refer to each other
in circles this is a least fixed point: no rule is marked at first, and every round marks the rules that
are nullable on the strength of the marks so far, until nothing changes. There are at most as many
rounds as rules, because each marks at least one more.
-/

namespace TokenGrammar

-- Whether a rule is nullable if just the marked rules are.
def Rule.isNullable (marked : RuleId → Bool) : Rule → Bool
  | sequence children => children.all marked
  | choice children => children.any marked
  | repetition min _ body => min = 0 || body.all marked
  | literal _ => false
  | charClass test => test = .endOfWord
  | token kind => kind = .endOfStream
  | reference _ target => target.any marked

namespace Arena

def nullableRound (arena : Arena) (marks : Array Bool) : Array Bool :=
  arena.rules.map (Rule.isNullable fun id => marks.getD id false)

def nullable (arena : Arena) : Array Bool :=
  go arena.size (Array.replicate arena.size false)
where
  go : Nat → Array Bool → Array Bool
    | 0, marks => marks
    | rounds + 1, marks =>
      let next := arena.nullableRound marks
      if next = marks then marks else go rounds next

end Arena

end TokenGrammar
