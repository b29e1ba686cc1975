import Mathlib.Data.List.TakeWhile
import TokenGrammar.Proofs.Match.Fault
import TokenGrammar.Proofs.Match.Identifier

/-!
The rule for identifiers that `Build.identifier` puts together. It stands in every grammar that is built
later on. There it takes the identifier off the word that comes next, and what is left of that word comes
as a word of its own. If the end of the word is required after it, it takes the words that are identifiers
as a whole (`Grammar.matchRule_identifier`).
-/

namespace TokenGrammar

namespace Arena

theorem get?_push {arena : Arena} {id : RuleId} {rule : Rule} (h : arena.get? id = some rule)
    (added : Rule) : (arena.push added).2.get? id = some rule := by
  have hlt := lt_size_of_get? h
  unfold size at hlt
  unfold get? at h
  unfold push get?
  rw [Array.getElem?_push_lt hlt, ← h]
  simp [hlt]

end Arena

namespace Builder

theorem get?_perform {b : Builder} {id : RuleId} {rule : Rule} (h : b.arena.get? id = some rule)
    (call : Call) : (b.perform call).arena.get? id = some rule := by
  cases call with
  | extension name =>
    change (if b.extensions.contains (normalExtension name) then b else _).arena.get? id = _
    split
    . exact h
    . exact h
  | config | root | rootNamed => exact h
  | define name target =>
    cases hlookup : b.definitions.lookup name with
    | none => simpa [perform, Call.step, run_define, hlookup] using h
    | some id => simpa [perform, Call.step, run_define, hlookup] using h
  | identifier =>
    iterate 6 apply Arena.get?_push
    exact h
  | _ =>
    apply Arena.get?_push
    exact h

theorem get?_run {b : Builder} {id : RuleId} {rule : Rule} (h : b.arena.get? id = some rule)
    (calls : List Call) : (b.run calls).arena.get? id = some rule := by
  induction calls generalizing b with
  | nil => exact h
  | cons call calls ih => exact ih (get?_perform h call)

theorem get?_build {b : Builder} {grammar : Grammar} (hb : b.build = .ok grammar) {id : RuleId}
    {rule : Rule} (h : b.arena.get? id = some rule) (hname : rule.referenceName? = none) :
    grammar.arena.get? id = some rule := by
  obtain ⟨_, _, heq⟩ := sound_of_build hb
  rw [heq]
  apply Arena.get?_bind h hname

def identifierRules (first : RuleId) : Array Rule :=
  #[.charClass .letter, .charClass .alphanumeric, .charClass (.exact '_'),
    .choice [first + 1, first + 2], .repetition 0 none [first + 3], .sequence [first, first + 4]]

theorem run_identifier (b : Builder) :
    Build.identifier.run b =
      .ok (b.arena.size + 5,
        { b with arena := ⟨b.arena.rules ++ identifierRules b.arena.size⟩ }) := by
  simp only [Build.identifier, Build.charClass, Build.rule, Arena.push, Arena.size, Build.choice,
    Build.zeroOrMore, Build.repetition, Build.sequence, StateT.run_bind, StateT.run_modifyGet,
    bind_pure_comp, map_pure, Array.size_push, identifierRules]
  rfl

theorem exists_identifierRule {b b' : Builder} {id : RuleId}
    (hid : Build.identifier.run b = .ok (id, b')) : Nonempty (IdentifierRule b'.arena id) := by
  rw [run_identifier] at hid
  cases hid
  have hget (k : Nat) : (b.arena.rules ++ identifierRules b.arena.size)[b.arena.size + k]? =
      (identifierRules b.arena.size)[k]? := by
    unfold Arena.size
    rw [Array.getElem?_append_right (Nat.le_add_right _ _), Nat.add_sub_cancel_left]
  exact ⟨⟨hget 0, hget 1, hget 2, hget 3, hget 4, hget 5⟩⟩

theorem exists_identifierRule_of_build {b b' : Builder} {id : RuleId}
    (hid : Build.identifier.run b = .ok (id, b')) {calls : List Call} {grammar : Grammar}
    (hb : (b'.run calls).build = .ok grammar) : Nonempty (IdentifierRule grammar.arena id) := by
  have hkept {place : RuleId} {rule : Rule} (hname : rule.referenceName? = none)
      (h : b'.arena.get? place = some rule) : grammar.arena.get? place = some rule :=
    get?_build hb (get?_run h calls) hname
  obtain ⟨rule⟩ := exists_identifierRule hid
  exact ⟨⟨hkept rfl rule.letter_eq, hkept rfl rule.alphanumeric_eq, hkept rfl rule.underscore_eq,
    hkept rfl rule.either_eq, hkept rfl rule.rest_eq, hkept rfl rule.identifier_eq⟩⟩

end Builder

namespace Config

def afterIdentifier? (config : Config) : List Token → Option (List Token)
  | [] => none
  | word :: rest =>
    match word.kind, word.text.toList with
    | .word, c :: cs =>
      if config.startsIdentifier c then
        some (Token.leftOver word.line (cs.dropWhile config.continuesIdentifier) ++ rest)
      else none
    | _, _ => none

def isIdentifier (config : Config) (word : Token) : Bool :=
  match word.kind, word.text.toList with
  | .word, c :: cs => config.startsIdentifier c && cs.all config.continuesIdentifier
  | _, _ => false

variable {config : Config} {word : Token} {c : Char} {cs : List Char} {tokens : List Token}

theorem afterIdentifier?_of_starts (hk : word.kind = .word) (ht : word.text.toList = c :: cs)
    (hc : config.startsIdentifier c = true) :
    config.afterIdentifier? (word :: tokens) =
      some (Token.leftOver word.line (cs.dropWhile config.continuesIdentifier) ++ tokens) := by
  simp [afterIdentifier?, hk, ht, hc]

theorem afterIdentifier?_of_none (h : config.NoIdentifier tokens) :
    config.afterIdentifier? tokens = none := by
  fun_cases afterIdentifier? config tokens with
  | case1 => rfl
  | case2 word rest c cs ht hk hc => simp [h word rfl hk c (by simp [ht])] at hc
  | case3 => rfl
  | case4 => rfl

theorem isIdentifier_of_starts (hk : word.kind = .word) (ht : word.text.toList = c :: cs)
    (hc : config.startsIdentifier c = true) :
    config.isIdentifier word = decide (cs.dropWhile config.continuesIdentifier = []) := by
  simp [isIdentifier, hk, ht, hc, List.dropWhile_eq_nil_iff, List.all_eq]

theorem any_isIdentifier_of_none (h : config.NoIdentifier tokens) :
    tokens.head?.any config.isIdentifier = false := by
  cases tokens with
  | nil => rfl
  | cons word tokens =>
    change config.isIdentifier word = false
    fun_cases isIdentifier config word with
    | case1 c cs ht hk => simp [h word rfl hk c (by simp [ht])]
    | case2 => rfl

end Config

namespace Grammar

theorem matchRule_identifier {b b' : Builder} {id : RuleId}
    (hid : Build.identifier.run b = .ok (id, b')) {calls : List Builder.Call} {grammar : Grammar}
    (hb : (b'.run calls).build = .ok grammar) {t : Tokenizer} (ht : t.Reachable)
    (hs : ∀ error, Read.fault error ∉ t.cursor.input) (hword : t.word = none) :
    (∃ t', grammar.arena.matchRule id t =
        (.ok (t.config.afterIdentifier? t.remaining).isSome, t') ∧
      t'.remaining = (t.config.afterIdentifier? t.remaining).getD t.remaining) ∧
    ∀ whole wordEnd, grammar.arena.get? whole = some (.sequence [id, wordEnd]) →
      grammar.arena.get? wordEnd = some (.charClass .endOfWord) →
        let isWhole := t.remaining.head?.any t.config.isIdentifier
        ∃ t', grammar.arena.matchRule whole t = (.ok isWhole, t') ∧
          (isWhole = true → t'.remaining = t.remaining.tail) := by
  obtain ⟨rule⟩ := Builder.exists_identifierRule_of_build hid hb
  have hstage : t.stage ≠ .atEnd := by simp [Tokenizer.stage_of_none hword]
  constructor
  . obtain ⟨verdict, t', hmatch⟩ :=
      exists_matchRule_ok hb ht hs (Arena.lt_size_of_get? rule.identifier_eq)
    refine ⟨t', ?_⟩
    rw [hmatch]
    rcases rule.matchIdentifier ht.consistent hstage hmatch with
      ⟨hb, ⟨hsame, _⟩, hnone⟩ | ⟨hb, token, c, cs, cursor, hremaining, hk, htext, hc, hinside⟩
    . rw [Config.afterIdentifier?_of_none hnone, hb]
      exact ⟨rfl, Tokenizer.remaining_congr hsame⟩
    . rw [hremaining, Config.afterIdentifier?_of_starts hk htext hc, hb]
      exact ⟨rfl, hinside.remaining⟩
  . intro whole wordEnd hwhole hend isWhole
    obtain ⟨verdict, t', hmatch⟩ := exists_matchRule_ok hb ht hs (Arena.lt_size_of_get? hwhole)
    refine ⟨t', ?_⟩
    rw [hmatch]
    rcases rule.matchWhole hwhole hend ht.consistent hstage hmatch with
      ⟨hb, ⟨hsame, _⟩, hnone⟩ | ⟨token, c, cs, cursor, hremaining, hk, htext, hc, hleft⟩
    . have hnot : isWhole = false := Config.any_isIdentifier_of_none hnone
      rw [hnot, hb]
      exact ⟨rfl, by simp⟩
    . have hiff : isWhole = decide (cs.dropWhile t.config.continuesIdentifier = []) := by
        simp only [isWhole, hremaining, List.head?_cons, Option.any_some]
        apply Config.isIdentifier_of_starts hk htext hc
      rcases hleft with ⟨hnil, hb, hcons, hview⟩ | ⟨hcons, hb, _⟩
      . rw [hiff, hb, hremaining]
        exact ⟨by simp [hnil], fun _ => Tokenizer.remaining_of_view hcons hview⟩
      . rw [hiff, hb]
        simp [hcons]

def identifierAlone : Builder :=
  { name := "names", arena := ⟨Builder.identifierRules 0⟩ }

def wholeWord : List Builder.Call :=
  [.charClass .endOfWord, .sequence [5, 6], .root 7]

theorem matchRule_identifier_wholeWord :
    let t := Tokenizer.ofSource {} (.ofText "r2_d2! x")
    let u := Tokenizer.ofSource {} (.ofText "r2_d2 x")
    Build.identifier.run { name := "names" } = .ok (5, identifierAlone) ∧
      ∃ grammar, (identifierAlone.run wholeWord).build = .ok grammar ∧
        (∃ t', grammar.arena.matchRule 5 t = (.ok true, t') ∧
          t'.remaining.map Token.text = ["!", "x"]) ∧
        (∃ t', grammar.arena.matchRule 7 t = (.ok false, t')) ∧
        ∃ u', grammar.arena.matchRule 7 u = (.ok true, u') ∧ u'.remaining.map Token.text = ["x"] := by
  intro t u
  have hid : Build.identifier.run { name := "names" } = .ok (5, identifierAlone) := rfl
  have hsome : (identifierAlone.run wholeWord).build.toOption.isSome = true := by
    decide +kernel
  have hs (text : String) : ∀ error, Read.fault error ∉ Source.ofText text := by
    simp [Source.ofText]
  refine ⟨hid, ?_⟩
  cases hb : (identifierAlone.run wholeWord).build with
  | error error => simp [hb, Except.toOption] at hsome
  | ok grammar =>
    have hwhole : grammar.arena.get? 7 = some (.sequence [5, 6]) := Builder.get?_build hb rfl rfl
    have hend : grammar.arena.get? 6 = some (.charClass .endOfWord) := Builder.get?_build hb rfl rfl
    obtain ⟨⟨t', hfirst, hrest⟩, hpart⟩ := matchRule_identifier hid hb (t := t) (.start _ _) (hs _) rfl
    obtain ⟨_, hwholes⟩ := matchRule_identifier hid hb (t := u) (.start _ _) (hs _) rfl
    obtain ⟨u', hsecond, htail⟩ := hwholes 7 6 hwhole hend
    obtain ⟨t'', hnot, _⟩ := hpart 7 6 hwhole hend
    have hbegins : (t.config.afterIdentifier? t.remaining).isSome = true := by
      decide +kernel
    have hafter : ((t.config.afterIdentifier? t.remaining).getD t.remaining).map Token.text =
        ["!", "x"] := by
      decide +kernel
    have hnotWhole : t.remaining.head?.any t.config.isIdentifier = false := by
      decide +kernel
    have hisWhole : u.remaining.head?.any u.config.isIdentifier = true := by
      decide +kernel
    have hfollowing : u.remaining.tail.map Token.text = ["x"] := by
      decide +kernel
    refine ⟨grammar, rfl, ⟨t', ?_, ?_⟩, ⟨t'', ?_⟩, u', ?_, ?_⟩
    . rw [hfirst, hbegins]
    . rw [hrest, hafter]
    . rw [hnot, hnotWhole]
    . rw [hsecond, hisWhole]
    . rw [htail hisWhole, hfollowing]

end Grammar

end TokenGrammar
