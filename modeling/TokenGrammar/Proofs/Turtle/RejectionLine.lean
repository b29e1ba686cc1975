import TokenGrammar.Command
import TokenGrammar.Proofs.Match.Fault
import TokenGrammar.Proofs.Tokenizer.Lines
import TokenGrammar.Proofs.Turtle.Soundness

/-!
The line of a rejection. A turtle script is rejected at the first token that its statements have left, and
the line that is given is the one on which this token starts (`check_locates`). A match does nothing to a
token stream but read from it and put back, so that the lines of its tokens stay true.
-/

namespace TokenGrammar

/-! A match is a run of operations. -/

namespace Tokenizer

theorem acceptToken_run {t t' : Tokenizer} {test : Token → Bool} {verdict : Bool}
    (h : t.acceptToken test = (.ok verdict, t')) : ∃ operations, t' = t.run operations := by
  unfold acceptToken at h
  split at h
  . simp at h
  . next u hnext =>
    have hread : t.run [.nextToken] = u := congrArg Prod.snd hnext
    split at h
    . exact ⟨[.nextToken], by rw [hread, (Prod.mk.inj h).2]⟩
    . split at h
      . simp at h
      . next u' hback =>
        refine ⟨[.nextToken, .pushBack], ?_⟩
        rw [← (Prod.mk.inj h).2, ← show u.pushBack.2 = u' from congrArg Prod.snd hback, ← hread]
        rfl

theorem acceptWordChar_run {t t' : Tokenizer} {test : WordRead → Bool} {verdict : Bool}
    (h : t.acceptWordChar test = (.ok verdict, t')) : ∃ operations, t' = t.run operations := by
  unfold acceptWordChar at h
  split at h
  . simp at h
  . next u hnext =>
    have hread : t.run [.nextWordChar] = u := congrArg Prod.snd hnext
    split at h
    . exact ⟨[.nextWordChar], by rw [hread, (Prod.mk.inj h).2]⟩
    . split at h
      . simp at h
      . next u' hback =>
        refine ⟨[.nextWordChar, .pushBackWordChar], ?_⟩
        rw [← (Prod.mk.inj h).2, ← show u.pushBackWordChar.2 = u' from congrArg Prod.snd hback, ← hread]
        rfl

theorem run_keptByLeaves : KeptByLeaves fun t t' => ∃ operations, t' = t.run operations := by
  constructor
  . intro t
    exact ⟨[], rfl⟩
  . rintro a _ _ ⟨operations, rfl⟩ ⟨operations', rfl⟩
    exact ⟨operations ++ operations', (List.foldl_append).symm⟩
  . intro t test ht
    refine ⟨(acceptToken_leads ht test).consistent, ?_⟩
    intro verdict hv
    exact acceptToken_run (Prod.ext hv rfl)
  . intro t test ht
    refine ⟨(acceptWordChar_leads ht test).consistent, ?_⟩
    intro verdict hv
    exact acceptWordChar_run (Prod.ext hv rfl)

theorem Placed.matchRule {config : Config} {text : List Char} {t t' : Tokenizer}
    (hplain : ∀ c ∈ config.delimiters, Source.isLineBreak c = false) (h : t.Placed config text)
    {arena : Arena} {id : RuleId} {verdict : Bool} (hm : arena.matchRule id t = (.ok verdict, t')) :
    t'.Placed config text := by
  have hmoves := Arena.matchRule_moves run_keptByLeaves arena id h.clean.consistent
  rw [hm] at hmoves
  obtain ⟨operations, rfl⟩ := hmoves.moved verdict rfl
  exact h.run hplain operations

/-! The leaf for the end of the stream. -/

theorem nextToken_of_acceptEnd {t t' : Tokenizer} (h : t.Consistent)
    (hm : t.acceptToken (fun token => token.kind = .endOfStream) = (.ok true, t')) :
    ∃ line t'', t'.nextToken = (.ok (.endOfStream line), t'') := by
  rw [acceptToken_eq h] at hm
  split at hm
  . simp at hm
  . next token cursor hp =>
    split at hm
    . next hend =>
      obtain ⟨_, hinput⟩ := (peek_readBefore h hp).atEnd hend
      have hcursor : cursor = ⟨[], cursor.line⟩ := by rw [← hinput]
      have hnext := nextToken_eq (t := t.took token cursor) fun _ => rfl
      rw [peek_took, hcursor, Config.upcoming, Config.scan_nil] at hnext
      rw [← (Prod.mk.inj hm).2, hcursor]
      exact ⟨cursor.line, _, hnext⟩
    . simp at hm

theorem held_of_acceptEnd {t t' : Tokenizer} (h : t.Consistent)
    (hm : t.acceptToken (fun token => token.kind = .endOfStream) = (.ok false, t')) :
    ∃ token cursor, token.isEndOfStream = false ∧ t' = t.held token cursor := by
  rw [acceptToken_eq h] at hm
  split at hm
  . simp at hm
  . next token cursor hp =>
    split at hm
    . simp at hm
    . next hend =>
      refine ⟨token, cursor, ?_, (Prod.mk.inj hm).2.symm⟩
      simpa [Token.isEndOfStream] using hend

end Tokenizer

/--
What a verdict on a text says about the token stream that is left. A document is well-formed if the end of
the stream comes next. It is rejected at the line on which the next token starts, by the line feeds before
it and the carriage returns before it that no line feed follows.
-/
def Verdict.Locates (config : Config) (text : List Char) (t : Tokenizer) : Verdict → Prop
  | .wellFormed => ∃ line t', t.nextToken = (.ok (.endOfStream line), t')
  | .rejected line =>
    ∃ token t' before chunk after, t.nextToken = (.ok token, t') ∧ token.isEndOfStream = false ∧
      text = before ++ chunk ++ after ∧ t'.cursor.input = after.map .char ∧
      (token.Spells config chunk ∨ token.SpellsOpen config chunk ∧ after = []) ∧
      line = 1 + before.count '\n' + Text.loneReturns before (chunk ++ after)

theorem Tokenizer.Placed.locates_held {config : Config} {text : List Char} {t : Tokenizer} {token : Token}
    {cursor : Cursor} (hplain : ∀ c ∈ config.delimiters, Source.isLineBreak c = false)
    (h : (t.held token cursor).Placed config text) (hend : token.isEndOfStream = false) :
    (Verdict.rejected (t.held token cursor).currentLine).Locates config text (t.held token cursor) := by
  have hp := peek_held t token cursor
  have hnext := nextToken_eq fun hr => (h.clean.consistent.replay hr).1
  obtain ⟨⟨before, chunk, after, htext, hcursor, hstands⟩, _⟩ := h.peek hplain hp
  rw [hp] at hnext
  refine ⟨token, _, before, chunk, after, hnext, hend, htext, hcursor, ?_, ?_⟩
  . rcases hstands.spelled with ⟨hend', _⟩ | ⟨_, _, hspells⟩
    . simp [hend] at hend'
    . exact hspells
  . rw [show (t.held token cursor).currentLine = token.line from rfl, hstands.line, Text.lineBreaks,
      Nat.add_assoc]

namespace Grammar.Turtle

theorem delimiters_plain : ∀ c ∈ config.delimiters, Source.isLineBreak c = false := by
  rw [show config.delimiters = ['"', '#'] from rfl]
  simp [Source.isLineBreak]

theorem check_locates {grammar : Grammar} (hg : turtle = .ok grammar) (text : String) :
    ∃ verdict, Command.check grammar (.ofText text) = .ok verdict ∧
      verdict.Locates grammar.config text.toList
        (grammar.matchStream (grammar.tokenizer (.ofText text))).2 := by
  obtain ⟨b, hb⟩ := exists_build_of_ofSteps hg
  obtain ⟨accepted, haccepted⟩ := exists_verdict hb text
  unfold accepts at haccepted
  unfold Command.check check
  rw [(rules_of_turtle hg).2.2]
  rw [matchStream_eq hg] at haccepted ⊢
  cases hm : arena.matchRule Place.program (.ofSource config (.ofText text)) with
  | mk result t' =>
    rw [hm] at haccepted
    obtain rfl : result = .ok accepted := haccepted
    have hplaced := (Tokenizer.Placed.start config text).matchRule delimiters_plain hm
    obtain ⟨u, hu, _, hend⟩ := (ofText_ready text).ending hm
    cases accepted with
    | true => exact ⟨.wellFormed, rfl, Tokenizer.nextToken_of_acceptEnd hu.consistent hend⟩
    | false =>
      obtain ⟨token, cursor, hne, rfl⟩ := Tokenizer.held_of_acceptEnd hu.consistent hend
      exact ⟨.rejected _, rfl, hplaced.locates_held delimiters_plain hne⟩

def brokenName : String :=
  "forward 10 # ahead\r\nprint \"a\rb\nc\"\r  learn ab-c 4"

theorem check_locates_brokenName :
    ∃ grammar, turtle = .ok grammar ∧
      Command.check grammar (.ofText brokenName) = .ok (.rejected 5) ∧
      (Verdict.rejected 5).Locates grammar.config brokenName.toList
        (grammar.matchStream (grammar.tokenizer (.ofText brokenName))).2 := by
  obtain ⟨grammar, hg, _⟩ := exists_turtle
  have hline : Command.check grammar (.ofText brokenName) = .ok (.rejected 5) := by
    unfold Command.check check
    rw [matchStream_eq hg]
    exact eq_ok_of_toOption (by decide +kernel)
  obtain ⟨verdict, hcheck, hlocates⟩ := check_locates hg brokenName
  rw [hline, Except.ok.injEq] at hcheck
  rw [← hcheck] at hlocates
  exact ⟨grammar, hg, hline, hlocates⟩

end Grammar.Turtle

end TokenGrammar
