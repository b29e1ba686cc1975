import TokenGrammar.Proofs.Match.Bounds
import TokenGrammar.Proofs.Tokenizer.Fields
import TokenGrammar.Proofs.Tokenizer.Lines

/-!
The counts of a tokenizer and of a match are bounded by what there is to read, whatever is done with the
tokenizer and whatever is matched. Lines are at most one more than the line breaks of the source, tokens and
read characters of a word at most as many as its characters (`Tokenizer.runCalls_counts`), and a repetition
counts at most twice as many passes and one more, since a pass may do no more than give up the active word.
So words of 32 bits hold all lines of a source whose line breaks they can count and one more, and a repetition
that counts in such words does what one that counts in numbers does (`Arena.countRepetition_eq`).
-/

namespace TokenGrammar

namespace Source

def lineEnds : Source → Nat
  | [] => 0
  | .char c :: rest => breakAt c rest + lineEnds rest
  | .fault _ :: rest => lineEnds rest

theorem breakAt_le_one (c : Char) (next : Source) : breakAt c next ≤ 1 := by
  unfold breakAt
  split
  . exact Nat.le_refl 1
  split
  . split
    . split <;> decide
    . decide
    . decide
  . decide

theorem lineEnds_le_length (source : Source) : source.lineEnds ≤ source.length := by
  induction source with
  | nil => exact Nat.le_refl 0
  | cons read rest ih =>
    cases read with
    | fault error => exact Nat.le_succ_of_le ih
    | char c =>
      have := breakAt_le_one c rest
      simp only [lineEnds, List.length_cons]
      omega

theorem lineBreaks_add_lineEnds (run : List Char) (rest : Source) :
    lineBreaks run.length (run.map .char ++ rest) + rest.lineEnds = lineEnds (run.map .char ++ rest) := by
  induction run with
  | nil => simp [lineBreaks_zero]
  | cons c run ih =>
    rw [List.length_cons, List.map_cons, List.cons_append, lineBreaks_cons, lineEnds, ← ih, Nat.add_assoc]

theorem lineEnds_text (chars : List Char) : lineEnds (chars.map .char) = Text.lineBreaks chars [] := by
  have hends := lineBreaks_add_lineEnds chars []
  rw [List.append_nil] at hends
  rw [← hends, ← lineBreaks_text chars (Or.inr rfl)]
  simp [lineEnds]

theorem ReadsTo.lineEnds_le {input rest : Source} (h : input.ReadsTo rest) : rest.lineEnds ≤ input.lineEnds := by
  obtain ⟨run, rfl⟩ := h
  rw [← lineBreaks_add_lineEnds]
  exact Nat.le_add_left _ _

end Source

namespace Scan

structure Counts (before : Cursor) (scan : Scan) : Prop where
  ends : scan.2.line + scan.2.input.lineEnds ≤ before.line + before.input.lineEnds
  grows : before.line ≤ scan.2.line
  token : ∀ token, scan.1 = .ok token → token.line ≤ scan.2.line

variable {before : Cursor} {scan : Scan}

theorem Exact.lineEnds_le {input : Source} (h : scan.Exact input) : scan.2.input.lineEnds ≤ input.lineEnds := by
  obtain ⟨result, after⟩ := scan
  cases result with
  | error error =>
    have hfault : input.ReadsTo (.fault error :: after.input) := h
    exact hfault.lineEnds_le
  | ok token => exact Source.ReadsTo.lineEnds_le h

-- A scan that counts the line breaks of a run, and not those before and after it.
theorem Counts.of_run {content rest : Source} {run : List Char} (hcontent : before.input.ReadsTo content)
    (hrun : content = run.map .char ++ rest) (hexact : scan.Exact rest)
    (hline : scan.2.line = before.line + content.lineBreaks run.length)
    (htoken : ∀ token, scan.1 = .ok token → token.line = before.line) : scan.Counts before := by
  have hle := hexact.lineEnds_le
  have hle' := hcontent.lineEnds_le
  have hends := Source.lineBreaks_add_lineEnds run rest
  rw [← hrun] at hends
  refine ⟨by omega, by omega, ?_⟩
  intro token hok
  have := htoken token hok
  omega

theorem Counts.of_exact (hexact : scan.Exact before.input) (hline : scan.2.line = before.line)
    (htoken : ∀ token, scan.1 = .ok token → token.line = before.line) : scan.Counts before := by
  have hrun : before.input = ([] : List Char).map .char ++ before.input := rfl
  exact .of_run (.refl _) hrun hexact (by rw [hline, List.length_nil, Source.lineBreaks_zero, Nat.add_zero])
    htoken

theorem finish_after (token : Token) (rest : Source) (line : Nat) :
    (finish token rest line).2.line = line ∧ ∀ token', (finish token rest line).1 = .ok token' → token' = token := by
  unfold finish
  split
  . simp
  . simp [eq_comm]

end Scan

namespace Config

theorem whitespaceLexeme_counts (config : Config) (cursor : Cursor) :
    (config.whitespaceLexeme cursor).Counts cursor := by
  obtain ⟨hline, htoken⟩ := Scan.finish_after _ _ _
  apply Scan.Counts.of_run (.refl _) (Source.takeRun_split config.isWhitespace cursor.input)
    (Scan.finish_exact _ _ _) hline
  intro token hok
  rw [htoken token hok]

theorem numberLexeme_counts (config : Config) (cursor : Cursor) : (config.numberLexeme cursor).Counts cursor := by
  obtain ⟨hline, htoken⟩ := Scan.finish_after _ _ _
  apply Scan.Counts.of_exact (config.numberLexeme_exact cursor) hline
  intro token hok
  rw [htoken token hok]

theorem stringLexeme_counts (config : Config) (quote : Char) (content : Source) (line : Nat) :
    (config.stringLexeme quote content line).Counts ⟨.char quote :: content, line⟩ := by
  obtain ⟨body, rest, hbody⟩ : ∃ body rest, stringBody quote config.activeEscape content = (body, rest) :=
    ⟨_, _, rfl⟩
  obtain ⟨hsplit, _, _⟩ := stringBody_go_split [] (by simp [StaysOpen]) content hbody
  simp only [List.reverse_nil, List.map_nil, List.nil_append] at hsplit
  have hcontent : Source.ReadsTo (.char quote :: content) content := (Source.ReadsTo.refl content).cons quote
  unfold stringLexeme
  rw [hbody]
  dsimp only
  split
  . exact .of_run hcontent hsplit (.refl _) rfl (by simp)
  . exact .of_run hcontent hsplit ((Source.ReadsTo.refl _).cons _) rfl (by simp)
  . exact .of_run hcontent hsplit (.refl _) rfl (by simp)

theorem newlineLexeme_counts {c : Char} (hc : Source.isLineBreak c = true) (rest : Source) (line : Nat) :
    (newlineLexeme c rest line).Counts ⟨.char c :: rest, line⟩ := by
  cases hscan : newlineLexeme c rest line with
  | mk result after =>
    cases result with
    | ok token =>
      obtain ⟨chunk, hsplit, hlined⟩ := newlineLexeme_lined hc hscan
      exact .of_run (.refl _) hsplit (.refl _) hlined.growth (by simp [← hlined.start])
    | error error =>
      have hexact := (newlineLexeme_exact c rest line).after ((Source.ReadsTo.refl rest).cons c)
      have hline : after.line = line := by
        unfold newlineLexeme at hscan
        dsimp only at hscan
        split at hscan
        . split at hscan
          . simp at hscan
          . cases hscan
            rfl
          . simp at hscan
        . simp at hscan
      rw [hscan] at hexact
      exact .of_exact hexact hline (by simp)

theorem commentLexeme_counts {input body : Source} (hbody : input.ReadsTo body) (opener : List Char)
    (style : CommentStyle) (line : Nat) : (commentLexeme opener style body line).Counts ⟨input, line⟩ := by
  cases style with
  | line =>
    have hexact := (commentLexeme_exact opener .line body line).after hbody
    unfold commentLexeme at hexact ⊢
    dsimp only at hexact ⊢
    obtain ⟨hline, htoken⟩ := Scan.finish_after _ _ _
    apply Scan.Counts.of_exact hexact hline
    intro token hok
    rw [htoken token hok]
  | block closer =>
    have hsplit := Source.takeUntil_split (fun rest => rest.probe closer ≠ .miss) body
    unfold commentLexeme
    dsimp only
    split
    . next hit => exact .of_run hbody hsplit ⟨closer, Source.probe_hit_split hit⟩ rfl (by simp)
    . exact .of_run hbody hsplit (.refl _) rfl (by simp)
    . next fault => exact .of_run hbody hsplit (Source.probe_fault_readsTo fault) rfl (by simp)

theorem wordLexeme_counts (config : Config) (c : Char) (rest : Source) (line : Nat) :
    (config.wordLexeme c rest line).Counts ⟨.char c :: rest, line⟩ := by
  have hexact := (config.wordLexeme_exact c rest line).after ((Source.ReadsTo.refl rest).cons c)
  unfold wordLexeme at hexact ⊢
  dsimp only at hexact ⊢
  split at hexact
  . exact .of_exact hexact rfl (by simp)
  . exact .of_exact hexact rfl (by simp)

theorem lexeme_counts (config : Config) (cursor : Cursor) : (config.lexeme cursor).Counts cursor := by
  obtain ⟨input, line⟩ := cursor
  have hexact := config.lexeme_exact ⟨input, line⟩
  have hdispatch := config.lexeme_dispatch input line
  generalize config.lexeme ⟨input, line⟩ = scan at hexact hdispatch
  cases hdispatch with
  | ending => exact .of_exact hexact rfl (by simp [Token.endOfStream])
  | fault error rest => exact .of_exact hexact rfl (by simp)
  | whitespace rest _ => apply whitespaceLexeme_counts
  | number rest _ _ => apply numberLexeme_counts
  | string rest _ _ _ => apply stringLexeme_counts
  | newline rest _ _ _ hb => exact newlineLexeme_counts hb rest line
  | comment _ _ _ _ ho =>
    obtain ⟨_, hsplit⟩ := opening_go_comment_split ho
    exact commentLexeme_counts ⟨_, hsplit⟩ _ _ line
  | openingFault _ _ _ _ _ => exact .of_exact hexact rfl (by simp)
  | word _ _ _ _ _ => apply wordLexeme_counts

theorem scan_counts (config : Config) (cursor : Cursor) : (config.scan cursor).Counts cursor := by
  fun_induction config.scan cursor with
  | case1 cursor token after heq hi hlt ih =>
    have hstep := config.lexeme_counts cursor
    rw [heq] at hstep
    exact ⟨Nat.le_trans ih.ends hstep.ends, Nat.le_trans hstep.grows ih.grows, ih.token⟩
  | case2 cursor token after heq hi =>
    have hstep := config.lexeme_counts cursor
    rwa [heq] at hstep
  | case3 cursor error after heq =>
    have hstep := config.lexeme_counts cursor
    rwa [heq] at hstep

theorem upcoming_counts {config : Config} {cursor after : Cursor} {result : Except LexError Token}
    (h : config.upcoming cursor = (result, after)) :
    after.line + after.input.lineEnds ≤ cursor.line + cursor.input.lineEnds ∧ cursor.line ≤ after.line ∧
      ∀ token, result = .ok token → token.line ≤ after.line := by
  have hcounts := config.scan_counts cursor
  unfold upcoming at h
  split at h
  . next heq =>
    cases h
    rw [heq] at hcounts
    refine ⟨hcounts.ends, hcounts.grows, ?_⟩
    intro token' htoken
    exact hcounts.token token' (by simpa using htoken)
  . next heq =>
    cases h
    rw [heq] at hcounts
    exact ⟨hcounts.ends, hcounts.grows, by simp⟩

end Config

namespace Tokenizer

def lastWork (t : Tokenizer) : Nat :=
  (t.last.map replayWork).getD 0

-- Whether the last token is among the tokens that are counted.
def lastCount (t : Tokenizer) : Nat :=
  if t.replay then 0 else (t.last.map fun token => token.delivered.length).getD 0

/--
The counts of a tokenizer stay within its source: the line with the line breaks to come, and the tokens
before the last one with what the last one holds and what is to come, in steps of which a character has two.
-/
structure Counted (source : Source) (t : Tokenizer) : Prop where
  consistent : t.Consistent
  line : t.cursor.line + t.cursor.input.lineEnds ≤ source.lineEnds + 1
  last : ∀ token, t.last = some token → token.line ≤ t.cursor.line
  tokens : 2 * t.tokens + t.lastWork + 2 * t.cursor.input.length ≤ 2 * source.length + 2 * t.lastCount

namespace Counted

variable {source : Source} {t t' : Tokenizer}

theorem start (config : Config) (source : Source) : (ofSource config source).Counted source := by
  refine ⟨ofSource_consistent config source, ?_, by simp [ofSource], ?_⟩
  . simp only [ofSource]
    omega
  . simp [ofSource, lastWork, lastCount]

theorem lastCount_le (h : t.Counted source) : 2 * t.lastCount ≤ t.lastWork := by
  unfold lastCount lastWork
  split
  . simp
  . cases hl : t.last with
    | none => simp
    | some token =>
      cases hend : token.isEndOfStream with
      | true => simp [Token.delivered, hend]
      | false => simpa [Token.delivered, hend] using replayWork_pos (h.consistent.last token hl) hend

theorem lastWork_of_word (h : t.Counted source) {word : ActiveWord} (hw : t.word = some word) :
    t.lastWork = 2 * word.chars.size ∧ t.lastCount = 1 := by
  obtain ⟨token, hl, hreads⟩ := h.consistent.word word hw
  have hlength := congrArg List.length hreads.chars
  rw [String.length_toList, Array.length_toList] at hlength
  constructor
  . simp [lastWork, hl, replayWork, hreads.kind, hlength]
  . simp [lastCount, h.consistent.replay_eq_false hw, hl, Token.delivered, Token.isEndOfStream, hreads.kind]

theorem tokens_left (h : t.Counted source) : 2 * t.tokens + t.left ≤ 2 * source.length := by
  have htokens := h.tokens
  have hcount := h.lastCount_le
  have hnext := workAhead_upcoming_le t.config t.cursor
  unfold left peek
  split
  . next hr =>
    obtain ⟨_, token, hl⟩ := h.consistent.replay hr
    simp only [lastCount, hr, ↓reduceIte, lastWork, hl, Option.map_some, Option.getD_some] at htokens
    simp only [hl, Option.getD_some, workAhead]
    omega
  . next hr =>
    split
    . omega
    . next word hw =>
      split
      . omega
      . next he =>
        obtain ⟨hwork, hone⟩ := h.lastWork_of_word hw
        obtain ⟨token, _, hreads⟩ := h.consistent.word word hw
        have hpos := hreads.pos_pos
        have hremainder : replayWork word.remainder = 2 * (word.chars.size - word.pos) := by
          simp [replayWork, ActiveWord.remainder]
        simp only [workAhead, hremainder]
        simp only [ActiveWord.isExhausted, decide_eq_true_eq, Nat.not_le] at he
        omega

theorem peek_line (h : t.Counted source) {result : Except LexError Token} {cursor : Cursor}
    (hp : t.peek = (result, cursor)) :
    cursor.line + cursor.input.lineEnds ≤ source.lineEnds + 1 ∧ t.cursor.line ≤ cursor.line ∧
      ∀ token, result = .ok token → token.line ≤ cursor.line := by
  have hline := h.line
  have upcoming (hp : t.config.upcoming t.cursor = (result, cursor)) :
      cursor.line + cursor.input.lineEnds ≤ source.lineEnds + 1 ∧ t.cursor.line ≤ cursor.line ∧
        ∀ token, result = .ok token → token.line ≤ cursor.line := by
    obtain ⟨hends, hgrows, htoken⟩ := Config.upcoming_counts hp
    exact ⟨Nat.le_trans hends hline, hgrows, htoken⟩
  unfold peek at hp
  split at hp
  . next hr =>
    obtain ⟨_, token, hl⟩ := h.consistent.replay hr
    cases hp
    refine ⟨hline, Nat.le_refl _, ?_⟩
    intro token' htoken
    exact h.last token' (by simp_all)
  . split at hp
    . exact upcoming hp
    . next word hw =>
      split at hp
      . exact upcoming hp
      . obtain ⟨token, hl, hreads⟩ := h.consistent.word word hw
        cases hp
        refine ⟨hline, Nat.le_refl _, ?_⟩
        intro token' htoken
        have hlast := h.last token hl
        rw [hreads.line] at hlast
        simp only [Except.ok.injEq] at htoken
        rwa [← htoken]

theorem of_peek (h : t.Counted source) {token : Token} {cursor : Cursor} (hp : t.peek = (.ok token, cursor))
    (hconsistent : t'.Consistent) (hcursor : t'.cursor = cursor) (hlast : t'.last = some token)
    (htokens : t'.tokens = t.tokens + t'.lastCount) : t'.Counted source := by
  obtain ⟨hends, _, htoken⟩ := h.peek_line hp
  have hleft := h.tokens_left
  have hwork : t.left = t'.lastWork + 2 * t'.cursor.input.length := by
    simp [left, hp, workAhead, lastWork, hlast, hcursor]
  refine ⟨hconsistent, by rw [hcursor]; exact hends, ?_, by omega⟩
  intro token' hl
  rw [hlast, Option.some.injEq] at hl
  rw [hcursor, ← hl]
  exact htoken token rfl

theorem of_same (h : t.Counted source) (hconsistent : t'.Consistent) (hcursor : t'.cursor = t.cursor)
    (hlast : t'.last = t.last) (htokens : t'.tokens + t.lastCount = t.tokens + t'.lastCount) :
    t'.Counted source := by
  have htokens' := h.tokens
  have hwork : t'.lastWork = t.lastWork := by rw [lastWork, hlast, lastWork]
  refine ⟨hconsistent, by rw [hcursor]; exact h.line, by rw [hcursor, hlast]; exact h.last, ?_⟩
  rw [hcursor]
  omega

theorem lost (h : t.Counted source) {error : LexError} {cursor : Cursor}
    (hp : t.peek = (.error error, cursor)) : (t.lost cursor).Counted source := by
  obtain ⟨hends, hgrows, _⟩ := h.peek_line hp
  obtain ⟨hr, hnext⟩ := peek_error hp
  have hle := workAhead_upcoming_le t.config t.cursor
  have htokens := h.tokens
  rw [hnext] at hle
  refine ⟨lost_consistent h.consistent hp, hends, ?_, ?_⟩
  . intro token hl
    exact Nat.le_trans (h.last token hl) hgrows
  . simp only [workAhead] at hle
    have hcount : (t.lost cursor).lastCount = t.lastCount := by simp [lastCount, Tokenizer.lost, hr]
    have hwork : (t.lost cursor).lastWork = t.lastWork := rfl
    rw [hcount, hwork]
    simp only [Tokenizer.lost]
    omega

theorem took_tokens (t : Tokenizer) (token : Token) (cursor : Cursor) :
    (t.took token cursor).tokens = t.tokens + (t.took token cursor).lastCount := by
  cases hend : token.isEndOfStream <;> simp [Tokenizer.took, lastCount, Token.delivered, hend]

theorem nextToken (h : t.Counted source) : t.nextToken.2.Counted source := by
  rw [nextToken_eq fun hr => (h.consistent.replay hr).1]
  split
  . next token cursor hp =>
    exact h.of_peek hp (took_consistent (peek_readBefore h.consistent hp)) rfl rfl (took_tokens t token cursor)
  . next hp => exact h.lost hp

theorem pushBack (h : t.Counted source) : t.pushBack.2.Counted source := by
  apply h.of_same (pushBack_consistent h.consistent) (pushBack_cursor t) (pushBack_kept t).2
  unfold Tokenizer.pushBack
  split
  . rfl
  . next hr =>
    split
    . rfl
    . next token hl =>
      rw [Bool.not_eq_true] at hr
      cases hend : token.isEndOfStream with
      | true => simp [lastCount, hr, hl, Token.delivered, hend]
      | false =>
        have hcounted := h.consistent.tokens token hl hend hr
        simp only [lastCount, hr, hl, Token.delivered, hend, Bool.false_eq_true, ↓reduceIte, Option.map_some,
          Option.getD_some, List.length_singleton]
        omega

theorem nextWordChar (h : t.Counted source) : t.nextWordChar.2.Counted source := by
  have hconsistent := nextWordChar_consistent h.consistent
  have outside (hs : t.stage = .idle ∨ t.stage = .past) : t.nextWordChar.2.Counted source := by
    rw [nextWordChar_of_outside h.consistent hs]
    split
    . next hp => exact h.lost hp
    . next token cursor hp =>
      have hread := peek_readBefore h.consistent hp
      split
      . next hk =>
        obtain ⟨c, cs, ht⟩ := exists_cons_of_readBefore hread hk
        rw [activate_took t ht]
        exact h.of_peek hp (entered_consistent hread hk) rfl rfl (took_tokens t token cursor)
      . exact h.of_peek hp (refused_consistent hread) rfl rfl rfl
  cases hs : t.stage with
  | idle => exact outside (Or.inl hs)
  | past => exact outside (Or.inr hs)
  | inside =>
    obtain ⟨word, hw, he⟩ := exists_word_of_inside hs
    obtain ⟨c, cs, _, hnext⟩ := nextWordChar_of_inside h.consistent hw he
    rw [hnext] at hconsistent ⊢
    exact h.of_same hconsistent rfl rfl rfl
  | atEnd =>
    obtain ⟨word, hw, he, hn⟩ := exists_word_of_atEnd hs
    rw [nextWordChar_of_atEnd hw he hn] at hconsistent ⊢
    exact h.of_same hconsistent rfl rfl rfl

theorem pushBackWordChar (h : t.Counted source) : t.pushBackWordChar.2.Counted source := by
  have hconsistent := pushBackWordChar_consistent h.consistent
  have hsealed : t.sealed.Counted source := h.of_same (sealed_consistent h.consistent) rfl rfl rfl
  unfold Tokenizer.pushBackWordChar at hconsistent ⊢
  dsimp only at hconsistent ⊢
  split
  . exact hsealed
  . next hs =>
    simp only [hs] at hconsistent
    exact h.of_same hconsistent rfl rfl rfl
  . exact hsealed.pushBack
  . next hs =>
    simp only [hs] at hconsistent
    exact h.of_same hconsistent rfl rfl rfl
  . exact hsealed

theorem afterCall (h : t.Counted source) (call : Call) : (t.afterCall call).Counted source := by
  cases call with
  | configure change => exact h.of_same (configure_consistent h.consistent _) rfl rfl rfl
  | operation operation =>
    cases operation with
    | nextToken => exact h.nextToken
    | pushBack => exact h.pushBack
    | nextWordChar => exact h.nextWordChar
    | pushBackWordChar => exact h.pushBackWordChar

theorem runCalls (h : t.Counted source) (calls : List Call) : (t.runCalls calls).Counted source := by
  induction calls generalizing t with
  | nil => exact h
  | cons call calls ih => exact ih (h.afterCall call)

theorem wordPos_le (h : t.Counted source) : t.mark.wordPos ≤ source.length := by
  cases hw : t.word with
  | none => simp [mark, hw]
  | some word =>
    obtain ⟨hwork, hone⟩ := h.lastWork_of_word hw
    obtain ⟨token, hl, hreads⟩ := h.consistent.word word hw
    have hpos := hreads.pos_le
    have hcounted := h.consistent.tokens token hl (by simp [Token.isEndOfStream, hreads.kind])
      (h.consistent.replay_eq_false hw)
    have htokens := h.tokens
    simp only [mark, hw, Option.map_some, Option.getD_some]
    omega

theorem currentLine_le (h : t.Counted source) : t.currentLine ≤ source.lineEnds + 1 := by
  have hline := h.line
  unfold currentLine
  split
  . next token hl =>
    have := h.last token hl
    split <;> omega
  . omega

end Counted

theorem runCalls_counts (config : Config) (source : Source) (calls : List Call) :
    let t := (ofSource config source).runCalls calls
    t.cursor.line ≤ source.lineEnds + 1 ∧ t.currentLine ≤ source.lineEnds + 1 ∧
      (∀ token, t.last = some token → token.line ≤ source.lineEnds + 1) ∧
      t.mark.tokens ≤ source.length ∧ t.mark.wordPos ≤ source.length := by
  intro t
  have h : t.Counted source := (Counted.start config source).runCalls calls
  have hline := h.line
  have hleft := h.tokens_left
  refine ⟨by omega, h.currentLine_le, ?_, ?_, h.wordPos_le⟩
  . intro token hl
    have := h.last token hl
    omega
  . simp only [mark]
    omega

theorem runCalls_fits {source : Source} (hlines : source.lineEnds + 1 < UInt32.size)
    (hlength : source.length < UInt64.size) (config : Config) (calls : List Call) :
    let t := (ofSource config source).runCalls calls
    t.cursor.line < UInt32.size ∧ t.currentLine < UInt32.size ∧
      (∀ token, t.last = some token → token.line < UInt32.size) ∧
      t.mark.tokens < UInt64.size ∧ t.mark.wordPos < UInt64.size := by
  obtain ⟨hline, hcurrent, hlast, htokens, hpos⟩ := runCalls_counts config source calls
  refine ⟨by omega, by omega, ?_, by omega, by omega⟩
  intro token hl
  have := hlast token hl
  omega

theorem acceptToken_after (t : Tokenizer) (test : Token → Bool) :
    (t.acceptToken test).2 = t.nextToken.2 ∨ (t.acceptToken test).2 = t.nextToken.2.pushBack.2 := by
  unfold acceptToken
  rcases t.nextToken with ⟨error | token, t⟩
  . exact Or.inl rfl
  . dsimp only
    split
    . exact Or.inl rfl
    . right
      rcases t.pushBack with ⟨_ | _, _⟩ <;> rfl

theorem acceptWordChar_after (t : Tokenizer) (test : WordRead → Bool) :
    (t.acceptWordChar test).2 = t.nextWordChar.2 ∨
      (t.acceptWordChar test).2 = t.nextWordChar.2.pushBackWordChar.2 := by
  unfold acceptWordChar
  rcases t.nextWordChar with ⟨error | read, t⟩
  . exact Or.inl rfl
  . dsimp only
    split
    . exact Or.inl rfl
    . right
      rcases t.pushBackWordChar with ⟨_ | _, _⟩ <;> rfl

def KeepsCounts (t t' : Tokenizer) : Prop :=
  ∀ source, t.Counted source → t'.Counted source

theorem keepsCounts_keptByLeaves : KeptByLeaves KeepsCounts := by
  constructor
  . intro t source h
    exact h
  . intro a b c hab hbc source h
    exact hbc source (hab source h)
  . intro t test ht
    refine ⟨(forward_keptByLeaves.token test ht).consistent, fun _ _ source h => ?_⟩
    rcases t.acceptToken_after test with hafter | hafter <;> rw [hafter]
    . exact h.nextToken
    . exact h.nextToken.pushBack
  . intro t test ht
    refine ⟨(forward_keptByLeaves.char test ht).consistent, fun _ _ source h => ?_⟩
    rcases t.acceptWordChar_after test with hafter | hafter <;> rw [hafter]
    . exact h.nextWordChar
    . exact h.nextWordChar.pushBackWordChar

theorem Counted.passRank_le {source : Source} {t : Tokenizer} (h : t.Counted source) :
    t.passRank ≤ 2 * source.length + 1 := by
  have hleft := h.tokens_left
  unfold passRank
  split <;> omega

end Tokenizer

namespace Arena

open Tokenizer

theorem matchRule_counted {source : Source} {t t' : Tokenizer} (h : t.Counted source) {arena : Arena}
    {id : RuleId} {verdict : Bool} (hmatch : arena.matchRule id t = (.ok verdict, t')) : t'.Counted source := by
  have hmoves := matchRule_moves keepsCounts_keptByLeaves arena id h.consistent
  rw [hmatch] at hmoves
  exact hmoves.moved verdict rfl source h

theorem matchRule_currentLine_lt {source : Source} (hlines : source.lineEnds + 1 < UInt32.size) {config : Config}
    {calls : List Call} {arena : Arena} {id : RuleId} {verdict : Bool} {t' : Tokenizer}
    (hmatch : arena.matchRule id ((ofSource config source).runCalls calls) = (.ok verdict, t')) :
    t'.currentLine < UInt32.size := by
  have h := matchRule_counted ((Counted.start config source).runCalls calls) hmatch
  have := h.currentLine_le
  omega

def increment? (count : UInt32) : Option UInt32 :=
  if count.toNat + 1 < UInt32.size then some (count + 1) else none

/--
A repetition that counts its passes in 32 bits, each before the mark is looked at. It comes to nothing where
the count goes over.
-/
def countRepetition (rule : RuleId) (min : UInt32) (max : Option UInt32) (body : Tokenizer → Attempt) :
    (passes : Nat) → (count : UInt32) → Tokenizer → Option Attempt
  | 0, _, t => some (.error (.endless rule), t)
  | passes + 1, count, t =>
    if max.any (· ≤ count) then some (.ok (min ≤ count), t)
    else
      match body t with
      | (.error error, t') => some (.error error, t')
      | (.ok false, t') => some (.ok (min ≤ count), t')
      | (.ok true, t') =>
        match increment? count with
        | none => none
        | some count =>
          if t'.mark = t.mark then some (.ok (min ≤ Max.max count min), t')
          else countRepetition rule min max body passes count t'

theorem increment?_eq {count : UInt32} (h : count.toNat + 1 < UInt32.size) :
    ∃ next, increment? count = some next ∧ next.toNat = count.toNat + 1 := by
  refine ⟨count + 1, if_pos h, ?_⟩
  rw [UInt32.toNat_add, UInt32.toNat_one, Nat.mod_eq_of_lt h]

theorem le_max_count (count min : UInt32) : min ≤ Max.max count min := by
  change min ≤ if count ≤ min then min else count
  split
  . exact UInt32.le_refl min
  . next hgt => exact UInt32.le_of_lt (UInt32.not_le.1 hgt)

-- The count and the rank together never grow, whatever is taken for the rank.
theorem countRepetition_eq_of_rank (rank : Tokenizer → Nat) {body : Tokenizer → Attempt}
    (hbody : ∀ t : Tokenizer, t.Consistent → t.Leads (body t))
    (hrank : ∀ t t' : Tokenizer, t.Consistent → body t = (.ok true, t') → t'.mark ≠ t.mark → rank t' < rank t)
    (rule : RuleId) (min : UInt32) (max : Option UInt32) (passes : Nat) (count : UInt32) {t : Tokenizer}
    (ht : t.Consistent) (hcount : count.toNat + rank t + 1 < UInt32.size) :
    countRepetition rule min max body passes count t =
      some (matchRepetition rule min.toNat (max.map UInt32.toNat) body passes count.toNat t) := by
  induction passes generalizing count t with
  | zero => rfl
  | succ passes ih =>
    have hmax : (max.map UInt32.toNat).any (· ≤ count.toNat) = max.any (· ≤ count) := by
      cases max <;> simp [UInt32.le_iff_toNat_le]
    have hpass := hbody t ht
    simp only [countRepetition, matchRepetition, hmax, ← UInt32.le_iff_toNat_le]
    split
    . rfl
    . rcases hresult : body t with ⟨error | _ | _, t'⟩
      . rfl
      . rfl
      . obtain ⟨next, hnext, htoNat⟩ := increment?_eq (by omega : count.toNat + 1 < UInt32.size)
        rw [hresult] at hpass
        simp only [hnext]
        split
        . simp [le_max_count]
        . next hm =>
          have hlt := hrank t t' ht hresult hm
          have hcount' : next.toNat + rank t' + 1 < UInt32.size := by omega
          rw [ih next hpass.consistent hcount', htoNat]

theorem countRepetition_eq {source : Source} (hshort : 2 * (source.length + 1) < UInt32.size) {t : Tokenizer}
    (h : t.Counted source) (arena : Arena) (rule : RuleId) (min : UInt32) (max : Option UInt32)
    (body : List RuleId) (passes depth : Nat) :
    countRepetition rule min max (matchAll (arena.matchWithin passes depth) body) passes 0 t =
      some (matchRepetition rule min.toNat (max.map UInt32.toNat) (matchAll (arena.matchWithin passes depth) body)
        passes 0 t) := by
  have hbody (t : Tokenizer) (ht : t.Consistent) := matchAll_leads (arena.matchWithin_leads passes depth) body ht
  have hrank := h.passRank_le
  apply countRepetition_eq_of_rank passRank hbody _ rule min max passes 0 h.consistent
  . simp only [UInt32.toNat_zero]
    omega
  . intro t t' ht hmatch hm
    have hpass := hbody t ht
    rw [hmatch] at hpass
    exact (hpass.forward true rfl).passRank_lt ht hm

-- If every pass takes something, it is enough that 32 bits hold the number of characters.
theorem countRepetition_eq_of_gaining {source : Source} (hshort : source.length + 1 < UInt32.size) {t : Tokenizer}
    (h : t.Counted source) {arena : Arena} {body : List RuleId}
    (hbody : (body.all fun id => arena.nullable.getD id false) = false) (rule : RuleId) (min : UInt32)
    (max : Option UInt32) (passes depth : Nat) :
    countRepetition rule min max (matchAll (arena.matchWithin passes depth) body) passes 0 t =
      some (matchRepetition rule min.toNat (max.map UInt32.toNat) (matchAll (arena.matchWithin passes depth) body)
        passes 0 t) := by
  have hleft := h.tokens_left
  apply countRepetition_eq_of_rank (fun t => t.left / 2) _ _ rule min max passes 0 h.consistent
  . simp only [UInt32.toNat_zero]
    omega
  . intro t ht
    exact matchAll_leads (arena.matchWithin_leads passes depth) body ht
  . intro t t' ht hmatch _
    have hgained := matchAll_gained (arena.matchWithin_leads passes depth) (arena.matchWithin_gained passes depth)
      hbody ht hmatch
    have := hgained.left
    omega

end Arena

end TokenGrammar
