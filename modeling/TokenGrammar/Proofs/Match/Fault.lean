import TokenGrammar.Proofs.Match.Termination

/-!
When a match fails. The rules of a grammar lead nowhere outside of it and a leaf puts back only what it
has just read, so that nothing but a failed read can go wrong: `Grammar.match_failsWithRead` says that a
match fails if and only if a read fails in it, and that it reports the failure of that read.
-/

namespace TokenGrammar

theorem Config.upcoming_ok {config : Config} {cursor after : Cursor} {token : Token}
    (h : config.upcoming cursor = (.ok token, after)) : cursor.input.ReadsTo after.input := by
  have hexact := config.scan_exact cursor
  unfold upcoming at h
  split at h
  . next heq =>
    cases h
    rw [heq] at hexact
    exact hexact
  . simp at h

theorem Config.upcoming_error {config : Config} {cursor after : Cursor} {error : LexError}
    (h : config.upcoming cursor = (.error error, after)) :
    ∃ fault, error = .read fault ∧ cursor.input.ReadsTo (.fault fault :: after.input) := by
  have hexact := config.scan_exact cursor
  unfold upcoming at h
  split at h
  . simp at h
  . next fault _ heq =>
    cases h
    rw [heq] at hexact
    exact ⟨fault, rfl, hexact⟩

namespace Tokenizer

theorem peek_ok {t : Tokenizer} {token : Token} {cursor : Cursor} (h : t.peek = (.ok token, cursor)) :
    t.cursor.input.ReadsTo cursor.input := by
  unfold peek at h
  split at h
  . cases h
    apply Source.ReadsTo.refl
  . split at h
    . exact Config.upcoming_ok h
    . split at h
      . exact Config.upcoming_ok h
      . cases h
        apply Source.ReadsTo.refl

inductive Exact (t : Tokenizer) : Attempt → Prop where
  | verdict {verdict : Bool} {t' : Tokenizer} :
    t.cursor.input.ReadsTo t'.cursor.input → Exact t (.ok verdict, t')
  | fault {error : ReadError} {t' : Tokenizer} :
    t.cursor.input.ReadsTo (.fault error :: t'.cursor.input) →
      Exact t (.error (.lex (.read error)), t')
  | endless {rule : RuleId} {t' : Tokenizer} : Exact t (.error (.endless rule), t')

theorem Exact.after {t t' : Tokenizer} {attempt : Attempt} (h : t'.Exact attempt)
    (hr : t.cursor.input.ReadsTo t'.cursor.input) : t.Exact attempt := by
  cases h with
  | verdict hv => exact .verdict (hr.trans hv)
  | fault hf => exact .fault (hr.trans hf)
  | endless => exact .endless

theorem acceptToken_reachable {t : Tokenizer} (h : t.Reachable) (test : Token → Bool) :
    (t.acceptToken test).2.Reachable := by
  have hnext := h.nextToken
  have hback := hnext.pushBack
  unfold acceptToken
  grind

theorem acceptWordChar_reachable {t : Tokenizer} (h : t.Reachable) (test : WordRead → Bool) :
    (t.acceptWordChar test).2.Reachable := by
  have hnext := h.nextWordChar
  have hback := hnext.pushBackWordChar
  unfold acceptWordChar
  grind

theorem acceptToken_exact {t : Tokenizer} (h : t.Consistent) (test : Token → Bool) :
    t.Exact (t.acceptToken test) := by
  rw [acceptToken_eq h]
  cases hp : t.peek with
  | mk result cursor =>
    cases result with
    | error error =>
      obtain ⟨fault, rfl, hf⟩ := Config.upcoming_error (peek_error hp).2
      exact .fault hf
    | ok token =>
      dsimp only
      split
      . exact .verdict (peek_ok hp)
      . exact .verdict (peek_ok hp)

theorem acceptWordChar_exact {t : Tokenizer} (h : t.Consistent) (test : WordRead → Bool) :
    t.Exact (t.acceptWordChar test) := by
  have outside (hs : t.stage = .idle ∨ t.stage = .past) : t.Exact (t.acceptWordChar test) := by
    rw [acceptWordChar_of_outside h hs]
    cases hp : t.peek with
    | mk result cursor =>
      cases result with
      | error error =>
        obtain ⟨fault, rfl, hf⟩ := Config.upcoming_error (peek_error hp).2
        exact .fault hf
      | ok token =>
        dsimp only
        split
        . split
          . exact .verdict (peek_ok hp)
          . exact .verdict (peek_ok hp)
        . split
          . exact .verdict (peek_ok hp)
          . exact .verdict (peek_ok hp)
  cases hs : t.stage with
  | idle => exact outside (.inl hs)
  | past => exact outside (.inr hs)
  | inside =>
    obtain ⟨word, hw, he⟩ := exists_word_of_inside hs
    obtain ⟨c, cs, hd, _⟩ := nextWordChar_of_inside h hw he
    rw [acceptWordChar_of_inside h hw he hd]
    split
    . exact .verdict (Source.ReadsTo.refl _)
    . exact .verdict (Source.ReadsTo.refl _)
  | atEnd =>
    obtain ⟨word, hw, he, hn⟩ := exists_word_of_atEnd hs
    rw [acceptWordChar_of_atEnd hw he hn]
    split
    . exact .verdict (Source.ReadsTo.refl _)
    . exact .verdict (Source.ReadsTo.refl _)

end Tokenizer

namespace Arena

def EntersExactly (enter : Tokenizer → Attempt) : Prop :=
  ∀ t : Tokenizer, t.Reachable → (enter t).2.Reachable ∧ t.Exact (enter t)

theorem matchAll_exact {enter : RuleId → Tokenizer → Attempt} {rules : List RuleId}
    (he : ∀ rule ∈ rules, EntersExactly (enter rule)) : EntersExactly (matchAll enter rules) := by
  intro t ht
  induction rules generalizing t with
  | nil => exact ⟨ht, .verdict (Source.ReadsTo.refl _)⟩
  | cons rule rules ih =>
    obtain ⟨hreach, hexact⟩ := he rule (by simp) t ht
    unfold matchAll
    split
    . next heq =>
      rw [heq] at hreach hexact
      cases hexact with
      | verdict hr =>
        obtain ⟨hreach', hexact'⟩ := ih (fun rule hmem => he rule (by simp [hmem])) _ hreach
        exact ⟨hreach', hexact'.after hr⟩
    . exact ⟨hreach, hexact⟩

theorem matchAny_exact {enter : RuleId → Tokenizer → Attempt} {rules : List RuleId}
    (he : ∀ rule ∈ rules, EntersExactly (enter rule)) : EntersExactly (matchAny enter rules) := by
  intro t ht
  induction rules generalizing t with
  | nil => exact ⟨ht, .verdict (Source.ReadsTo.refl _)⟩
  | cons rule rules ih =>
    obtain ⟨hreach, hexact⟩ := he rule (by simp) t ht
    unfold matchAny
    split
    . next heq =>
      rw [heq] at hreach hexact
      cases hexact with
      | verdict hr =>
        obtain ⟨hreach', hexact'⟩ := ih (fun rule hmem => he rule (by simp [hmem])) _ hreach
        exact ⟨hreach', hexact'.after hr⟩
    . exact ⟨hreach, hexact⟩

theorem matchRepetition_exact {body : Tokenizer → Attempt} (hbody : EntersExactly body) (rule : RuleId)
    (min : Nat) (max : Option Nat) (passes count : Nat) :
    EntersExactly (matchRepetition rule min max body passes count) := by
  intro t ht
  induction passes generalizing count t with
  | zero => exact ⟨ht, .endless⟩
  | succ passes ih =>
    obtain ⟨hreach, hexact⟩ := hbody t ht
    unfold matchRepetition
    split
    . exact ⟨ht, .verdict (Source.ReadsTo.refl _)⟩
    . split
      . next heq =>
        rw [heq] at hreach hexact
        exact ⟨hreach, hexact⟩
      . next heq =>
        rw [heq] at hreach hexact
        cases hexact with
        | verdict hr => exact ⟨hreach, .verdict hr⟩
      . next heq =>
        rw [heq] at hreach hexact
        split
        . exact ⟨hreach, hexact⟩
        . cases hexact with
          | verdict hr =>
            obtain ⟨hreach', hexact'⟩ := ih (count + 1) _ hreach
            exact ⟨hreach', hexact'.after hr⟩

theorem matchWithin_exact {arena : Arena} (hin : arena.Inside)
    (hbound : ∀ name, Rule.reference name none ∉ arena.rules) (passes depth : Nat) {id : RuleId}
    (hid : id < arena.size) : EntersExactly (arena.matchWithin passes depth id) := by
  induction depth generalizing id with
  | zero =>
    intro t ht
    exact ⟨ht, .endless⟩
  | succ depth ih =>
    intro t ht
    obtain ⟨rule, hrule⟩ : ∃ rule, arena.get? id = some rule := ⟨_, Array.getElem?_eq_getElem hid⟩
    have hmem := mem_rules_iff.2 ⟨id, hrule⟩
    have hsuccessors : ∀ id' ∈ rule.successors, EntersExactly (arena.matchWithin passes depth id') :=
      fun id' hid' => ih (hin rule hmem id' hid')
    unfold matchWithin
    simp only [hrule]
    cases rule with
    | sequence children => exact matchAll_exact hsuccessors t ht
    | choice children => exact matchAny_exact hsuccessors t ht
    | repetition min max body => exact matchRepetition_exact (matchAll_exact hsuccessors) _ _ _ _ _ t ht
    | literal word => exact ⟨Tokenizer.acceptToken_reachable ht _, Tokenizer.acceptToken_exact ht.consistent _⟩
    | charClass test =>
      exact ⟨Tokenizer.acceptWordChar_reachable ht _, Tokenizer.acceptWordChar_exact ht.consistent _⟩
    | token kind => exact ⟨Tokenizer.acceptToken_reachable ht _, Tokenizer.acceptToken_exact ht.consistent _⟩
    | reference name target =>
      cases target with
      | none => exact absurd hmem (hbound name)
      | some target => exact hsuccessors target (by simp [Rule.successors]) t ht

end Arena

/--
The attempt fails if and only if one of the reads in it fails. That read is the last one, and its failure
is what is reported.
-/
def Tokenizer.FailsWithRead (t : Tokenizer) (attempt : Attempt) : Prop :=
  ∃ reads : Source, t.cursor.input = reads ++ attempt.2.cursor.input ∧
    ((∃ error, attempt.1 = .error error) ↔ ∃ fault, Read.fault fault ∈ reads) ∧
    ∀ error, attempt.1 = .error error →
      ∃ (chars : List Char) (fault : ReadError),
        reads = chars.map .char ++ [.fault fault] ∧ error = .lex (.read fault)

theorem Tokenizer.Exact.failsWithRead {t : Tokenizer} {attempt : Attempt} (h : t.Exact attempt)
    (hend : ¬Endless attempt) : t.FailsWithRead attempt := by
  cases h with
  | verdict hr =>
    obtain ⟨chars, heq⟩ := hr
    refine ⟨chars.map .char, heq, ?_, ?_⟩
    . simp
    . simp
  | fault hr =>
    obtain ⟨chars, heq⟩ := hr
    refine ⟨chars.map .char ++ [.fault _], by simpa using heq, ?_, ?_⟩
    . simp
    . rintro error ⟨⟩
      exact ⟨chars, _, rfl, rfl⟩
  | endless => exact absurd ⟨_, rfl⟩ hend

namespace Grammar

variable {b : Builder} {grammar : Grammar} {t : Tokenizer}

theorem closed_of_build (hb : b.build = .ok grammar) : grammar.Closed := by
  obtain ⟨hsound, hroot, heq⟩ := Builder.sound_of_build hb
  rw [heq]
  exact hsound.closed hroot

theorem matchRule_not_endless (hb : b.build = .ok grammar) (ht : t.Consistent) (id : RuleId) :
    ¬Endless (grammar.arena.matchRule id t) := by
  have hfits : t.Fits (Arena.passBound t) := ⟨ht, Arena.passRank_lt_passBound ht⟩
  obtain ⟨depth, a, ha, hd⟩ := Arena.matchWithin_settles (Builder.leftGraph_ends hb) id hfits
  rw [← hd depth (Nat.le_refl _)] at ha
  rwa [Arena.matchRule_eq_of_not_endless ht (Nat.le_refl _) ha]

theorem matchRule_failsWithRead (hb : b.build = .ok grammar) (ht : t.Reachable) {id : RuleId}
    (hid : id < grammar.arena.size) :
    (grammar.arena.matchRule id t).2.Reachable ∧ t.FailsWithRead (grammar.arena.matchRule id t) := by
  have hclosed := closed_of_build hb
  have hbound : ∀ name, Rule.reference name none ∉ grammar.arena.rules := by
    intro name hmem
    obtain ⟨id, hid, _⟩ := hclosed.references name none hmem
    contradiction
  obtain ⟨hreach, hexact⟩ := Arena.matchWithin_exact hclosed.rules hbound _ _ hid t ht
  exact ⟨hreach, hexact.failsWithRead (matchRule_not_endless hb ht.consistent id)⟩

theorem match_failsWithRead (hb : b.build = .ok grammar) (ht : t.Reachable) :
    ((grammar.matchStream t).2.Reachable ∧ t.FailsWithRead (grammar.matchStream t)) ∧
      ∀ name,
        (grammar.rule? name ≠ none →
          (grammar.matchNamed name t).2.Reachable ∧ t.FailsWithRead (grammar.matchNamed name t)) ∧
        (grammar.rule? name = none →
          grammar.matchNamed name t = (.error (.unknownRule grammar.name name), t)) := by
  have hclosed := closed_of_build hb
  have ht' := ht.configure grammar.config
  refine ⟨matchRule_failsWithRead hb ht' hclosed.root, ?_⟩
  intro name
  unfold matchNamed
  cases hrule : grammar.rule? name with
  | none => simp
  | some id =>
    refine ⟨fun _ => matchRule_failsWithRead hb ht' (hclosed.definitions name id hrule), ?_⟩
    intro h
    contradiction

theorem exists_matchRule_ok (hb : b.build = .ok grammar) (ht : t.Reachable)
    (hs : ∀ error, Read.fault error ∉ t.cursor.input) {id : RuleId} (hid : id < grammar.arena.size) :
    ∃ verdict t', grammar.arena.matchRule id t = (.ok verdict, t') := by
  obtain ⟨_, reads, hreads, hiff, _⟩ := matchRule_failsWithRead hb ht hid
  cases hmatch : grammar.arena.matchRule id t with
  | mk result t' =>
    cases result with
    | ok verdict => exact ⟨verdict, t', rfl⟩
    | error error =>
      obtain ⟨fault, hfault⟩ := hiff.1 ⟨error, by rw [hmatch]⟩
      refine absurd ?_ (hs fault)
      rw [hreads]
      exact List.mem_append_left _ hfault

theorem exists_verdict (hb : b.build = .ok grammar) (text : String) :
    ∃ verdict, grammar.accepts text = .ok verdict := by
  have ht := (Tokenizer.Reachable.start grammar.config (.ofText text)).configure grammar.config
  have hs : ∀ error, Read.fault error ∉ Source.ofText text := by simp [Source.ofText]
  obtain ⟨verdict, t', hmatch⟩ := exists_matchRule_ok hb ht hs (closed_of_build hb).root
  exact ⟨verdict, congrArg Prod.fst hmatch⟩

def twoWords : Builder :=
  { name := "words"
    arena := ⟨#[.charClass .letter, .repetition 1 none [0], .charClass .endOfWord, .sequence [1, 2],
      .reference "word" none, .sequence [3, 4]]⟩
    definitions := [("word", 3)]
    root := some (.id 5) }

def brokenWords : Tokenizer :=
  let source := Source.ofText "ab c" ++ .fault .truncated :: Source.ofText "d"
  (Tokenizer.ofSource {} source).nextWordChar.2.pushBackWordChar.2

theorem match_failsWithRead_brokenWords :
    ∃ grammar, twoWords.build = .ok grammar ∧ brokenWords.Reachable ∧
      ((grammar.matchStream brokenWords).2.Reachable ∧
        brokenWords.FailsWithRead (grammar.matchStream brokenWords)) ∧
      ∀ name,
        (grammar.rule? name ≠ none →
          (grammar.matchNamed name brokenWords).2.Reachable ∧
            brokenWords.FailsWithRead (grammar.matchNamed name brokenWords)) ∧
        (grammar.rule? name = none →
          grammar.matchNamed name brokenWords =
            (.error (.unknownRule grammar.name name), brokenWords)) := by
  have hsome : twoWords.build.toOption.isSome = true := by decide +kernel
  have ht : brokenWords.Reachable := .pushBackWordChar (.nextWordChar (.start _ _))
  cases hb : twoWords.build with
  | error error => simp [hb, Except.toOption] at hsome
  | ok grammar => exact ⟨grammar, rfl, ht, match_failsWithRead hb ht⟩

end Grammar

end TokenGrammar
