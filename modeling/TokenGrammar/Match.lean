import TokenGrammar.Rule

/-!
Matching rules against a token stream. A leaf that does not match puts back what it read. A sequence
stops at the first child that does not match, and what the children before it took stays taken; a choice
takes the first child that matches. A repetition goes on until its body does not match, its maximum is
reached, or a pass leaves the mark as it was; in the last case the minimum counts as reached.

A rule may lead back to itself, so that the depth to which rules are entered is bounded by a number, and
so is the number of passes of a repetition. The bounds are computed from the arena and from what is left
of the stream, and they are above what any run that ends can need: a run that reaches the depth comes
back to the same rule with nothing taken off the stream, and would do so for ever; a repetition goes on
only after a pass that took something.
-/

namespace TokenGrammar

inductive MatchError where
  | lex (error : LexError)
  | unresolvedReference (name : String)
  | danglingRule (rule : RuleId)
  | unknownRule (grammar : String) (name : String)
  | endless (rule : RuleId)
  deriving DecidableEq, Repr, Inhabited

namespace MatchError

def message : MatchError → String
  | lex error => error.message
  | unresolvedReference name => "reference to rule `" ++ name ++ "` was never resolved"
  | danglingRule rule => "rule " ++ RuleId.label rule ++ " is not part of this grammar"
  | unknownRule grammar name => "grammar `" ++ grammar ++ "` has no rule named `" ++ name ++ "`"
  | endless rule => "rule " ++ RuleId.label rule ++ " never finishes"

end MatchError

abbrev Attempt := Except MatchError Bool × Tokenizer

namespace Tokenizer

def acceptToken (t : Tokenizer) (test : Token → Bool) : Attempt :=
  match t.nextToken with
  | (.error error, t) => (.error (.lex error), t)
  | (.ok token, t) =>
    if test token then (.ok true, t)
    else
      match t.pushBack with
      | (.error error, t) => (.error (.lex error), t)
      | (.ok _, t) => (.ok false, t)

def acceptWordChar (t : Tokenizer) (test : WordRead → Bool) : Attempt :=
  match t.nextWordChar with
  | (.error error, t) => (.error (.lex error), t)
  | (.ok read, t) =>
    if test read then (.ok true, t)
    else
      match t.pushBackWordChar with
      | (.error error, t) => (.error (.lex error), t)
      | (.ok _, t) => (.ok false, t)

-- What a token that was put back still holds: its characters if it is a word, or else one unit.
def replayWork (token : Token) : Nat :=
  match token.kind with
  | .word => 2 * token.text.length
  | .endOfStream => 0
  | _ => 2

/--
A bound on the steps that can still be taken along a token stream. No match makes it larger, and every
match that changes the mark makes it smaller.
-/
def work (t : Tokenizer) : Nat :=
  let replayed := if t.replay then (t.last.map replayWork).getD 0 else 0
  let active := (t.word.map fun word => 2 * (word.chars.size - word.pos) + 1).getD 0
  2 * t.cursor.input.length + replayed + active

end Tokenizer

namespace Rule

def literalAccepts (word : String) (caseSensitive : Bool) (token : Token) : Bool :=
  !token.isEndOfStream && wordsEqual caseSensitive token.text word

end Rule

namespace Arena

def matchAll (enter : RuleId → Tokenizer → Attempt) : List RuleId → Tokenizer → Attempt
  | [], t => (.ok true, t)
  | rule :: rules, t =>
    match enter rule t with
    | (.ok true, t) => matchAll enter rules t
    | attempt => attempt

def matchAny (enter : RuleId → Tokenizer → Attempt) : List RuleId → Tokenizer → Attempt
  | [], t => (.ok false, t)
  | rule :: rules, t =>
    match enter rule t with
    | (.ok false, t) => matchAny enter rules t
    | attempt => attempt

/--
Passes over the body of the repetition `rule`, of which `count` have matched, at most `passes` more.
-/
def matchRepetition (rule : RuleId) (min : Nat) (max : Option Nat) (body : Tokenizer → Attempt) :
    (passes : Nat) → (count : Nat) → Tokenizer → Attempt
  | 0, _, t => (.error (.endless rule), t)
  | passes + 1, count, t =>
    if max.any (· ≤ count) then (.ok (min ≤ count), t)
    else
      match body t with
      | (.error error, t') => (.error error, t')
      | (.ok false, t') => (.ok (min ≤ count), t')
      | (.ok true, t') =>
        if t'.mark = t.mark then (.ok true, t')
        else matchRepetition rule min max body passes (count + 1) t'

def matchWithin (arena : Arena) (passes : Nat) : (depth : Nat) → RuleId → Tokenizer → Attempt
  | 0, id, t => (.error (.endless id), t)
  | depth + 1, id, t =>
    match arena.get? id with
    | none => (.error (.danglingRule id), t)
    | some (.sequence children) => matchAll (arena.matchWithin passes depth) children t
    | some (.choice children) => matchAny (arena.matchWithin passes depth) children t
    | some (.repetition min max body) =>
      matchRepetition id min max (matchAll (arena.matchWithin passes depth) body) passes 0 t
    | some (.literal word) => t.acceptToken (Rule.literalAccepts word t.config.caseSensitive)
    | some (.charClass test) => t.acceptWordChar (test.accepts t.config.caseSensitive)
    | some (.token kind) => t.acceptToken fun token => token.kind = kind
    | some (.reference name none) => (.error (.unresolvedReference name), t)
    | some (.reference _ (some target)) => arena.matchWithin passes depth target t

-- A number of passes that no repetition can reach.
def passBound (t : Tokenizer) : Nat :=
  t.work + 2

def depthBound (arena : Arena) (t : Tokenizer) : Nat :=
  4 * (arena.size + 1) * (t.work + 2)

def matchRule (arena : Arena) (id : RuleId) (t : Tokenizer) : Attempt :=
  arena.matchWithin (passBound t) (arena.depthBound t) id t

end Arena

end TokenGrammar
