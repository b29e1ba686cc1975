import Mathlib.Data.List.TakeWhile
import TokenGrammar.Proofs.Match.Identifier
import TokenGrammar.Proofs.Turtle.Leaves

/-!
The rule for names, character by character. It takes the word that comes next if that is a name
(`Ready.readName`). Otherwise the identifier with which the word begins is taken off it and stays taken.
-/

namespace TokenGrammar.Grammar.Turtle

def startsName (token : Token) : Bool :=
  token.kind = .word && token.text.toList.head?.any Text.isAlphabetic

def leftOver (line : Nat) (cs : List Char) : Token :=
  { kind := .word, text := String.ofList cs, line }

theorem accepts_underscore (c : Char) :
    (CharClass.exact '_').accepts false (.char c) = decide (c = '_') := by
  have hlower : Text.lowercase '_' = ['_'] := by decide
  have hc : Text.lowercase c = ['_'] → c = '_' := Text.eq_of_lowercase (by decide) (by decide) (by decide)
  by_cases heq : c = '_'
  . simp [CharClass.accepts, heq]
  . simpa [CharClass.accepts, heq, hlower] using fun h => heq (hc h)

theorem continuesIdentifier_eq : config.continuesIdentifier = isIdentifierChar := by
  funext c
  have hcase : config.caseSensitive = false := rfl
  rw [Config.continuesIdentifier, hcase, accepts_underscore]
  rfl

structure NameRule (arena : Arena) (name : RuleId) where
  {letter alphanumeric underscore either rest identifier wordEnd : RuleId}
  letter_eq : arena.get? letter = some (.charClass .letter)
  alphanumeric_eq : arena.get? alphanumeric = some (.charClass .alphanumeric)
  underscore_eq : arena.get? underscore = some (.charClass (.exact '_'))
  either_eq : arena.get? either = some (.choice [alphanumeric, underscore])
  rest_eq : arena.get? rest = some (.repetition 0 none [either])
  identifier_eq : arena.get? identifier = some (.sequence [letter, rest])
  wordEnd_eq : arena.get? wordEnd = some (.charClass .endOfWord)
  name_eq : arena.get? name = some (.sequence [identifier, wordEnd])

def NameRule.identifierRule {arena : Arena} {name : RuleId} (rule : NameRule arena name) :
    IdentifierRule arena rule.identifier :=
  ⟨rule.letter_eq, rule.alphanumeric_eq, rule.underscore_eq, rule.either_eq, rule.rest_eq,
    rule.identifier_eq⟩

inductive NameRead (t t' : Tokenizer) : Bool → Prop where
  | name {token : Token} :
    isName token = true → t.remaining = token :: t'.remaining → NameRead t t' true
  | none :
    t'.remaining = t.remaining → (∀ token ∈ t.remaining.head?, startsName token = false) →
      NameRead t t' false
  | part {token : Token} {stem : List Char} {c : Char} {cs : List Char} {rest : List Token} :
    t.remaining = token :: rest → token.kind = .word → token.text.toList = stem ++ c :: cs →
      isIdentifier stem = true → isIdentifierChar c = false →
      t'.remaining = leftOver token.line (c :: cs) :: rest → NameRead t t' false

theorem proper_leftOver (line : Nat) (c : Char) (cs : List Char) : Proper (leftOver line (c :: cs)) := by
  constructor
  . simp [Token.HasShape, leftOver]
  . rfl
  . rfl

theorem Ready.readName {arena : Arena} {name : RuleId} {passes depth : Nat} {t t' : Tokenizer} {b : Bool}
    (h : Ready t) (rule : NameRule arena name)
    (hm : arena.matchWithin passes depth name t = (.ok b, t')) : Ready t' ∧ NameRead t t' b := by
  rcases rule.identifierRule.matchWhole rule.name_eq rule.wordEnd_eq h.consistent h.stage hm with
    ⟨rfl, ⟨hsame, hstage⟩, hnone⟩ | ⟨token, c, cs, cursor, hremaining, hk, ht, hc, hleft⟩
  . obtain ⟨hready, hremaining⟩ := h.alongside hsame.consistent hsame.config hsame.peek hstage
    refine ⟨hready, NameRead.none hremaining ?_⟩
    intro token hmem
    rw [Bool.eq_false_iff]
    intro hstarts
    simp only [startsName, Bool.and_eq_true, decide_eq_true_eq, Option.any_eq_true] at hstarts
    obtain ⟨hk, c, hc, halpha⟩ := hstarts
    have := hnone token hmem hk c hc
    simp [Config.startsIdentifier, CharClass.accepts, halpha] at this
  . rw [h.config] at hremaining hc hleft
    have hc : Text.isAlphabetic c = true := hc
    have hproper : ∀ token ∈ Turtle.config.tokensFrom cursor, Proper token := by
      intro token' hmem
      apply h.proper
      rw [hremaining]
      exact List.mem_cons_of_mem token hmem
    dsimp only at hleft
    rw [continuesIdentifier_eq] at hleft
    rcases hleft with ⟨hnil, rfl, hcons, hview⟩ | ⟨hne, rfl, hinside⟩
    . have hrest := Tokenizer.remaining_of_view hcons hview
      rw [← hrest] at hremaining hproper
      refine ⟨⟨hcons, congrArg View.config hview, ?_, hproper⟩, NameRead.name ?_ hremaining⟩
      . rw [show t'.stage = .past from congrArg View.stage hview]
        simp
      . rw [List.dropWhile_eq_nil_iff] at hnil
        simpa [isName, hk, ht, isIdentifier, hc] using hnil
    . obtain ⟨c', cs', hleft⟩ := List.exists_cons_of_ne_nil hne
      rw [hleft] at hinside
      have hrest : t'.remaining = leftOver token.line (c' :: cs') :: Turtle.config.tokensFrom cursor :=
        hinside.remaining
      have htext : token.text.toList = (c :: cs.takeWhile isIdentifierChar) ++ c' :: cs' := by
        rw [ht, ← hleft, List.cons_append, List.takeWhile_append_dropWhile]
      refine ⟨⟨hinside.consistent, hinside.config_eq, ?_, ?_⟩,
        NameRead.part hremaining hk htext ?_ ?_ hrest⟩
      . rw [show t'.stage = .inside from congrArg View.stage hinside.view]
        simp
      . rw [hrest]
        simp only [List.mem_cons, forall_eq_or_imp]
        exact ⟨proper_leftOver token.line c' cs', hproper⟩
      . simp [isIdentifier, hc]
      . have := List.head?_dropWhile_not isIdentifierChar cs
        simpa [hleft] using this

end TokenGrammar.Grammar.Turtle
