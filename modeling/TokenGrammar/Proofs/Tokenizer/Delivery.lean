import Mathlib.Data.List.Induction
import TokenGrammar.Proofs.Tokenizer.Remaining

/-!
Every token of a text is delivered once, whatever the order in which its tokens and the characters of its
words are read and put back (`Tokenizer.run_delivers_once`).
-/

namespace TokenGrammar

namespace Tokenizer

inductive Operation where
  | nextToken
  | pushBack
  | nextWordChar
  | pushBackWordChar

def perform (t : Tokenizer) : Operation → Tokenizer
  | .nextToken => t.nextToken.2
  | .pushBack => t.pushBack.2
  | .nextWordChar => t.nextWordChar.2
  | .pushBackWordChar => t.pushBackWordChar.2

def run (t : Tokenizer) (operations : List Operation) : Tokenizer :=
  operations.foldl perform t

/--
The token that an operation returns. A word of which the first character is read counts as returned; it
is the one that comes next.
-/
def returned (t : Tokenizer) : Operation → Option Token
  | .nextToken => t.nextToken.1.toOption
  | .nextWordChar =>
    match t.nextWordChar.1 with
    | .ok (.char _) => if t.stage = .inside then none else t.remaining.head?
    | _ => none
  | .pushBack => none
  | .pushBackWordChar => none

def lastReturned (t : Tokenizer) : List Operation → Option Token
  | [] => none
  | operation :: operations =>
    ((t.perform operation).lastReturned operations).or (t.returned operation)

def unread (t : Tokenizer) : List Char :=
  (t.word.map fun word => word.chars.toList.drop word.pos).getD []

structure Clean (t : Tokenizer) : Prop where
  consistent : t.Consistent
  source : ∀ error, Read.fault error ∉ t.cursor.input

theorem upcoming_ok_of_faultless {config : Config} {cursor : Cursor}
    (h : ∀ error, Read.fault error ∉ cursor.input) :
    ∃ token after, config.upcoming cursor = (.ok token, after) ∧ after.input <:+ cursor.input := by
  have hsplits := config.scan_splits cursor
  unfold Config.upcoming
  cases hscan : config.scan cursor with
  | mk result after =>
    rw [hscan] at hsplits
    cases result with
    | ok token => exact ⟨token, after, rfl, hsplits⟩
    | error error =>
      have hmem : Read.fault error ∈ cursor.input := List.IsSuffix.subset hsplits (by simp)
      exact absurd hmem (h error)

theorem Clean.peek {t : Tokenizer} (h : t.Clean) :
    ∃ token cursor, t.peek = (.ok token, cursor) ∧ cursor.input <:+ t.cursor.input := by
  unfold Tokenizer.peek
  split
  . exact ⟨_, _, rfl, List.suffix_refl _⟩
  . split
    . exact upcoming_ok_of_faultless h.source
    . split
      . exact upcoming_ok_of_faultless h.source
      . exact ⟨_, _, rfl, List.suffix_refl _⟩

theorem Clean.of_suffix {t t' : Tokenizer} (h : t.Clean) (hc : t'.Consistent)
    (hs : t'.cursor.input <:+ t.cursor.input) : t'.Clean := by
  refine ⟨hc, ?_⟩
  intro error hmem
  exact h.source error (hs.subset hmem)

/-! Reading a token. -/

theorem Clean.nextToken {t : Tokenizer} (h : t.Clean) :
    ∃ token cursor, t.peek = (.ok token, cursor) ∧ t.nextToken = (.ok token, t.took token cursor) ∧
      (t.took token cursor).Clean := by
  obtain ⟨token, cursor, hp, hs⟩ := h.peek
  have hnext := nextToken_eq fun hr => (h.consistent.replay hr).1
  rw [hp] at hnext
  refine ⟨token, cursor, hp, hnext, ?_⟩
  exact h.of_suffix (took_consistent (peek_readBefore h.consistent hp)) hs

theorem Clean.readAll_tokens {t : Tokenizer} (h : t.Clean) :
    ∃ ending, ending.isEndOfStream = true ∧ t.readAll.tokens = t.remaining ++ [ending] := by
  induction hn : t.tokensLeft using Nat.strongRecOn generalizing t with
  | ind n ih =>
    obtain ⟨token, cursor, _, hnext, hclean⟩ := h.nextToken
    cases hend : token.isEndOfStream with
    | true =>
      refine ⟨token, hend, ?_⟩
      rw [remaining_of_end hnext hend, readAll, readAll_go_of_end hnext hend]
      rfl
    | false =>
      have hlt := nextToken_ok_tokensLeft_lt hnext hend
      obtain ⟨ending, hending, hrest⟩ := ih _ (by omega) hclean rfl
      refine ⟨ending, hending, ?_⟩
      rw [remaining_of_token hnext hend, readAll_of_token hnext hend, List.cons_append, ← hrest]

theorem nextToken_delivers {t : Tokenizer} (h : t.Clean) :
    ∃ token t', t.nextToken = (.ok token, t') ∧ t.remaining = token.delivered ++ t'.remaining ∧
      (token.isEndOfStream = true ↔ t.remaining = []) := by
  obtain ⟨token, cursor, hp, hnext, hclean⟩ := h.nextToken
  have hrest := remaining_of_upcoming hclean.consistent (peek_took t token cursor)
  have hsplit : t.remaining = token.delivered ++ (t.took token cursor).remaining := by
    rw [remaining_of_peek h.consistent hp, hrest]
    rfl
  refine ⟨token, _, hnext, hsplit, ?_⟩
  constructor
  . exact remaining_of_end hnext
  . intro hnil
    rw [hnil, Token.delivered] at hsplit
    cases hend : token.isEndOfStream with
    | true => rfl
    | false => simp [hend] at hsplit

/-! Reading a character. -/

inductive CharRead (t : Tokenizer) : WordRead → Tokenizer → Prop where
  | atEnd {word : ActiveWord} (hs : t.stage = .atEnd) (hw : t.word = some word)
    (he : word.isExhausted = true) (hn : word.ended = false) : CharRead t .endOfWord (t.ended word)
  | inside {word : ActiveWord} {c : Char} {cs : List Char} (hs : t.stage = .inside)
    (hw : t.word = some word) (he : word.isExhausted = false)
    (hd : word.chars.toList.drop word.pos = c :: cs) : CharRead t (.char c) (t.advanced word)
  | entered {token : Token} {cursor : Cursor} {c : Char} {cs : List Char} (hs : t.stage ≠ .inside)
    (hp : t.peek = (.ok token, cursor)) (hi : cursor.input <:+ t.cursor.input) (hk : token.kind = .word)
    (ht : token.text.toList = c :: cs) : CharRead t (.char c) (t.entered token cursor)
  | refused {token : Token} {cursor : Cursor} (hp : t.peek = (.ok token, cursor))
    (hi : cursor.input <:+ t.cursor.input) : CharRead t .notAWord (t.refused token cursor)

theorem Clean.nextWordChar {t : Tokenizer} (h : t.Clean) :
    ∃ read t', t.nextWordChar = (.ok read, t') ∧ t.CharRead read t' := by
  have outside (hs : t.stage = .idle ∨ t.stage = .past) :
      ∃ read t', t.nextWordChar = (.ok read, t') ∧ t.CharRead read t' := by
    obtain ⟨token, cursor, hp, hi⟩ := h.peek
    rw [nextWordChar_of_outside h.consistent hs, hp]
    dsimp only
    split
    . next hk =>
      obtain ⟨c, cs, ht⟩ := exists_cons_of_readBefore (peek_readBefore h.consistent hp) hk
      have hne : t.stage ≠ .inside := by
        rcases hs with hs | hs
        . simp [hs]
        . simp [hs]
      exact ⟨_, _, activate_took t ht, .entered hne hp hi hk ht⟩
    . exact ⟨_, _, rfl, .refused hp hi⟩
  cases hs : t.stage with
  | idle => exact outside (Or.inl hs)
  | past => exact outside (Or.inr hs)
  | inside =>
    obtain ⟨word, hw, he⟩ := exists_word_of_inside hs
    obtain ⟨c, cs, hd, hnext⟩ := nextWordChar_of_inside h.consistent hw he
    exact ⟨_, _, hnext, .inside hs hw he hd⟩
  | atEnd =>
    obtain ⟨word, hw, he, hn⟩ := exists_word_of_atEnd hs
    exact ⟨_, _, nextWordChar_of_atEnd hw he hn, .atEnd hs hw he hn⟩

theorem CharRead.clean {t t' : Tokenizer} {read : WordRead} (hr : t.CharRead read t') (h : t.Clean) :
    t'.Clean := by
  have hc := h.consistent
  cases hr with
  | atEnd hs hw he hn => exact h.of_suffix (ended_consistent hc hw he) (List.suffix_refl _)
  | inside hs hw he hd => exact h.of_suffix (advanced_consistent hc hw he) (List.suffix_refl _)
  | entered hs hp hi hk ht => exact h.of_suffix (entered_consistent (peek_readBefore hc hp) hk) hi
  | refused hp hi => exact h.of_suffix (refused_consistent (peek_readBefore hc hp)) hi

theorem CharRead.remaining {t t' : Tokenizer} {read : WordRead} (hr : t.CharRead read t')
    (h : t.Clean) :
    match read with
    | .char c => ∃ word cs rest, word.kind = .word ∧ word.text.toList = c :: cs ∧
        t.remaining = word :: rest ∧ t'.remaining = Token.leftOver word.line cs ++ rest
    | _ => t'.remaining = t.remaining := by
  have hc := h.consistent
  have hclean := hr.clean h
  cases hr with
  | atEnd hs hw he hn =>
    have hview := view_ended hc hw he
    exact remaining_congr ⟨hclean.consistent, hc, rfl, congrArg View.ahead hview⟩
  | @inside word c cs hs hw he hd =>
    have hview := view_advanced hc hw he hd
    refine ⟨word.remainder, cs, t.config.tokensFrom t.cursor, rfl, ?_, ?_, ?_⟩
    . simpa [ActiveWord.remainder] using hd
    . exact remaining_of_peek hc (peek_of_unread hc hw he)
    . exact remaining_of_afterChar hclean.consistent (congrArg View.ahead hview)
  | @entered token cursor c cs hs hp hi hk ht =>
    have hview := view_entered (t := t) (peek_readBefore hc hp) hk ht
    refine ⟨token, cs, t.config.tokensFrom cursor, hk, ht, ?_, ?_⟩
    . rw [remaining_of_peek hc hp]
      simp [Token.delivered, Token.isEndOfStream, hk]
    . exact remaining_of_afterChar hclean.consistent (congrArg View.ahead hview)
  | refused hp hi =>
    exact remaining_congr ⟨hclean.consistent, hc, rfl, hp.symm⟩

theorem CharRead.takeBack {t t' : Tokenizer} {read : WordRead} (hr : t.CharRead read t')
    (h : t.Clean) : ∃ t'', t'.pushBackWordChar = (.ok (), t'') ∧ t''.remaining = t.remaining := by
  have hc := h.consistent
  cases hr with
  | atEnd hs hw he hn =>
    refine ⟨_, pushBackWordChar_ended hw hn, ?_⟩
    exact remaining_congr ⟨sealed_consistent hc, hc, rfl, rfl⟩
  | inside hs hw he hd =>
    refine ⟨_, pushBackWordChar_advanced hw, ?_⟩
    exact remaining_congr ⟨sealed_consistent hc, hc, rfl, rfl⟩
  | entered hs hp hi hk ht =>
    refine ⟨_, pushBackWordChar_entered _ _ _, ?_⟩
    exact remaining_congr ⟨held_consistent (peek_readBefore hc hp), hc, rfl, hp.symm⟩
  | refused hp hi =>
    refine ⟨_, pushBackWordChar_refused _ _ _, ?_⟩
    exact remaining_congr ⟨held_consistent (peek_readBefore hc hp), hc, rfl, hp.symm⟩

/-! Putting back a token. -/

theorem pushBack_ok {t t' : Tokenizer} (h : t.pushBack = (.ok (), t')) :
    t.replay = false ∧ ∃ token, t.last = some token ∧ t'.config = t.config ∧ t'.replay = true ∧
      t'.wordStep = none ∧ t'.peek = (.ok token, t.cursor) := by
  unfold pushBack at h
  split at h
  . simp at h
  . next hr =>
    split at h
    . simp at h
    . next token hl =>
      rw [Prod.mk.injEq] at h
      rw [← h.2]
      refine ⟨by simpa using hr, token, hl, rfl, rfl, rfl, ?_⟩
      simp [peek, hl]

theorem pushBack_error {t t' : Tokenizer} {error : LexError} (h : t.pushBack = (.error error, t')) :
    t' = t := by
  unfold pushBack at h
  split at h
  . exact (Prod.mk.inj h).2.symm
  . split at h
    . exact (Prod.mk.inj h).2.symm
    . simp at h

theorem peek_of_word {t : Tokenizer} (h : t.Consistent) {word : ActiveWord} (hw : t.word = some word) :
    t.peek = t.config.afterChar word.line (word.chars.toList.drop word.pos) t.cursor := by
  unfold Config.afterChar
  cases he : word.isExhausted with
  | true =>
    rw [peek_of_exhausted h hw he, if_pos]
    simpa [ActiveWord.isExhausted] using he
  | false =>
    rw [peek_of_unread h hw he, if_neg]
    . rfl
    . simpa [ActiveWord.isExhausted] using he

theorem pushBack_remaining {t t' : Tokenizer} (h : t.Consistent) (hb : t.pushBack = (.ok (), t')) :
    ∃ token rest, t.last = some token ∧ t.remaining = Token.leftOver token.line t.unread ++ rest ∧
      t'.remaining = token.delivered ++ rest := by
  obtain ⟨hr, token, hl, hconfig, _, _, hp⟩ := pushBack_ok hb
  have h' : t'.Consistent := by
    have := pushBack_consistent h
    rw [hb] at this
    exact this
  refine ⟨token, t.config.tokensFrom t.cursor, hl, ?_, ?_⟩
  . cases hw : t.word with
    | none =>
      have hpeek : t.peek = t.config.upcoming t.cursor := by simp [peek, hr, hw]
      rw [remaining_of_upcoming h hpeek]
      simp [unread, hw, Token.leftOver]
    | some word =>
      obtain ⟨last, hl', hreads⟩ := h.word word hw
      rw [hl, Option.some.injEq] at hl'
      rw [remaining_of_afterChar h (peek_of_word h hw), hl', hreads.line]
      simp [unread, hw]
  . rw [remaining_of_peek h' hp, hconfig]

/-! Runs. -/

theorem run_append (t : Tokenizer) (operations : List Operation) (operation : Operation) :
    t.run (operations ++ [operation]) = (t.run operations).perform operation := by
  simp [run]

theorem lastReturned_append (t : Tokenizer) (operations : List Operation) (operation : Operation) :
    t.lastReturned (operations ++ [operation]) =
      ((t.run operations).returned operation).or (t.lastReturned operations) := by
  induction operations generalizing t with
  | nil => simp [lastReturned, run]
  | cons first operations ih =>
    simp only [List.cons_append, lastReturned, ih, Option.or_assoc]
    rfl

theorem pushBack_cursor (t : Tokenizer) : t.pushBack.2.cursor = t.cursor := by
  unfold pushBack
  split
  . rfl
  . split <;> rfl

theorem pushBackWordChar_cursor (t : Tokenizer) : t.pushBackWordChar.2.cursor = t.cursor := by
  unfold pushBackWordChar
  dsimp only
  split
  . rfl
  . rfl
  . apply pushBack_cursor
  . rfl
  . rfl

theorem Clean.perform {t : Tokenizer} (h : t.Clean) (operation : Operation) :
    (t.perform operation).Clean := by
  cases operation with
  | nextToken =>
    obtain ⟨token, cursor, _, hnext, hclean⟩ := h.nextToken
    simp only [Tokenizer.perform, hnext]
    exact hclean
  | pushBack =>
    apply h.of_suffix (pushBack_consistent h.consistent)
    simp only [pushBack_cursor, List.suffix_refl]
  | nextWordChar =>
    obtain ⟨read, t', hnext, hread⟩ := h.nextWordChar
    simp only [Tokenizer.perform, hnext]
    exact hread.clean h
  | pushBackWordChar =>
    apply h.of_suffix (pushBackWordChar_consistent h.consistent)
    simp only [pushBackWordChar_cursor, List.suffix_refl]

theorem ofText_clean (config : Config) (text : String) : (ofSource config (.ofText text)).Clean := by
  refine ⟨ofSource_consistent config _, ?_⟩
  intro error hmem
  simp [ofSource, Source.ofText] at hmem

theorem Clean.run {t : Tokenizer} (h : t.Clean) (operations : List Operation) :
    (t.run operations).Clean := by
  induction operations generalizing t with
  | nil => exact h
  | cons operation operations ih => exact ih (h.perform operation)

theorem pushBack_wordStep {t : Tokenizer} (h : t.wordStep = none) : t.pushBack.2.wordStep = none := by
  unfold pushBack
  split
  . exact h
  . split
    . exact h
    . rfl

theorem pushBackWordChar_wordStep (t : Tokenizer) : t.pushBackWordChar.2.wordStep = none := by
  unfold pushBackWordChar
  dsimp only
  split
  . rfl
  . rfl
  . exact pushBack_wordStep rfl
  . rfl
  . rfl

-- What can be taken back is the last read of a character, after which only failures came.
theorem exists_read_of_wordStep {t : Tokenizer} (h : t.Clean) (ht : t.wordStep = none)
    {operations : List Operation} (hs : (t.run operations).wordStep ≠ none) :
    ∃ before failed, operations = before ++ .nextWordChar :: failed ∧
      (∀ operation ∈ failed, operation = .pushBack) ∧
      t.run (before ++ [.nextWordChar]) = t.run operations := by
  induction operations using List.reverseRecOn with
  | nil => exact absurd ht hs
  | append_singleton operations operation ih =>
    rw [run_append] at hs
    cases operation with
    | nextToken =>
      obtain ⟨token, cursor, _, hnext, _⟩ := (h.run operations).nextToken
      rw [perform, hnext] at hs
      exact absurd rfl hs
    | nextWordChar => exact ⟨operations, [], rfl, by simp, rfl⟩
    | pushBackWordChar => exact absurd (pushBackWordChar_wordStep _) hs
    | pushBack =>
      cases hb : (t.run operations).pushBack with
      | mk result t' =>
        rw [perform, hb] at hs
        cases result with
        | ok _ =>
          obtain ⟨_, _, _, _, _, hnone, _⟩ := pushBack_ok hb
          exact absurd hnone hs
        | error error =>
          have hsame := pushBack_error hb
          rw [hsame] at hs
          obtain ⟨before, failed, hops, hfailed, hrun⟩ := ih hs
          refine ⟨before, failed ++ [.pushBack], ?_, ?_, ?_⟩
          . rw [hops]
            simp
          . intro operation hmem
            rw [List.mem_append, List.mem_singleton] at hmem
            rcases hmem with hmem | hmem
            . exact hfailed operation hmem
            . exact hmem
          . rw [hrun, run_append, perform, hb]
            exact hsame.symm

theorem pushBack_last (t : Tokenizer) :
    t.pushBack.2.replay = true ∨ t.pushBack.2.last = t.last ∧ t.pushBack.2.replay = t.replay := by
  unfold pushBack
  split
  . exact Or.inr ⟨rfl, rfl⟩
  . split
    . exact Or.inr ⟨rfl, rfl⟩
    . exact Or.inl rfl

theorem pushBackWordChar_last (t : Tokenizer) :
    t.pushBackWordChar.2.replay = true ∨
      t.pushBackWordChar.2.last = t.last ∧ t.pushBackWordChar.2.replay = t.replay := by
  unfold pushBackWordChar
  dsimp only
  split
  . exact Or.inr ⟨rfl, rfl⟩
  . exact Or.inr ⟨rfl, rfl⟩
  . exact pushBack_last _
  . exact Or.inr ⟨rfl, rfl⟩
  . exact Or.inr ⟨rfl, rfl⟩

theorem last_eq_lastReturned {t : Tokenizer} (h : t.Clean) (ht : t.last = none)
    (operations : List Operation) (hr : (t.run operations).replay = false) :
    (t.run operations).last = t.lastReturned operations := by
  induction operations using List.reverseRecOn with
  | nil => exact ht
  | append_singleton operations operation ih =>
    have hclean := h.run operations
    rw [run_append] at hr ⊢
    rw [lastReturned_append]
    cases operation with
    | nextToken =>
      obtain ⟨token, cursor, _, hnext, _⟩ := hclean.nextToken
      simp only [perform, returned, hnext]
      rfl
    | nextWordChar =>
      obtain ⟨read, t', hnext, hread⟩ := hclean.nextWordChar
      simp only [perform, returned, hnext] at hr ⊢
      cases hread with
      | atEnd hs hw he hn => exact ih hr
      | inside hs hw he hd =>
        rw [if_pos hs]
        exact ih hr
      | entered hs hp hi hk hc =>
        rw [if_neg hs, remaining_of_peek hclean.consistent hp]
        simp [Token.delivered, Token.isEndOfStream, hk, entered, took]
      | refused hp hi => simp [refused, held] at hr
    | pushBack =>
      rcases pushBack_last (t.run operations) with hreplay | ⟨hlast, hsame⟩
      . simp [perform, hreplay] at hr
      . rw [perform, hsame] at hr
        rw [perform, hlast]
        exact ih hr
    | pushBackWordChar =>
      rcases pushBackWordChar_last (t.run operations) with hreplay | ⟨hlast, hsame⟩
      . simp [perform, hreplay] at hr
      . rw [perform, hsame] at hr
        rw [perform, hlast]
        exact ih hr

theorem pushBackWordChar_error {t t' : Tokenizer} (h : t.Consistent) {error : LexError}
    (hb : t.pushBackWordChar = (.error error, t')) : t' = t.sealed := by
  have hstep := h.step
  unfold StepFits at hstep
  unfold pushBackWordChar at hb
  dsimp only at hb
  split at hb
  . exact (Prod.mk.inj hb).2.symm
  . simp at hb
  . next hs =>
    rw [hs] at hstep
    obtain ⟨word, hw, _⟩ := hstep
    obtain ⟨token, hl, _⟩ := h.word word hw
    have hr := h.replay_eq_false hw
    simp [pushBack, hr, hl] at hb
  . simp at hb
  . simp at hb

theorem wordStep_of_pushBackWordChar_ok {t t' : Tokenizer}
    (hb : t.pushBackWordChar = (.ok (), t')) : t.wordStep ≠ none := by
  intro hs
  simp [pushBackWordChar, hs] at hb

theorem pushBackWordChar_remaining {t t' : Tokenizer} (h : t.Clean)
    (hb : (t.perform .nextWordChar).pushBackWordChar = (.ok (), t')) : t'.remaining = t.remaining := by
  obtain ⟨read, after, hnext, hread⟩ := h.nextWordChar
  obtain ⟨back, hback, hrem⟩ := hread.takeBack h
  rw [perform, hnext, hback] at hb
  rw [← (Prod.mk.inj hb).2]
  exact hrem

/--
The tokens that are still to come change with every operation as they must: a token that is read is the
first of them, a character is the first of a word that is the first of them, and what is put back is what
was read last.
-/
theorem run_delivers_once (config : Config) (text : String) (operations : List Operation) :
    let start := ofSource config (.ofText text)
    let t := start.run operations
    (∃ token t', t.nextToken = (.ok token, t') ∧ t.remaining = token.delivered ++ t'.remaining ∧
      (token.isEndOfStream = true ↔ t.remaining = [])) ∧
    (∃ read t', t.nextWordChar = (.ok read, t') ∧
      match read with
      | .char c => ∃ word cs rest, word.kind = .word ∧ word.text.toList = c :: cs ∧
          t.remaining = word :: rest ∧ t'.remaining = Token.leftOver word.line cs ++ rest
      | .endOfWord => t'.remaining = t.remaining
      | .notAWord => t'.remaining = t.remaining) ∧
    (∀ result t', t.pushBack = (result, t') →
      match result with
      | .ok _ => ∃ token rest, start.lastReturned operations = some token ∧
          t.remaining = Token.leftOver token.line t.unread ++ rest ∧
          t'.remaining = token.delivered ++ rest
      | .error _ => t'.remaining = t.remaining) ∧
    (∀ result t', t.pushBackWordChar = (result, t') →
      match result with
      | .ok _ => ∃ before failed, operations = before ++ .nextWordChar :: failed ∧
          (∀ operation ∈ failed, operation = .pushBack) ∧
          start.run (before ++ [.nextWordChar]) = t ∧ t'.remaining = (start.run before).remaining
      | .error _ => t'.remaining = t.remaining) := by
  intro start t
  have hstart : start.Clean := ofText_clean config text
  have h : t.Clean := hstart.run operations
  refine ⟨nextToken_delivers h, ?_, ?_, ?_⟩
  . obtain ⟨read, t', hnext, hread⟩ := h.nextWordChar
    refine ⟨read, t', hnext, ?_⟩
    have := hread.remaining h
    cases read with
    | char c => exact this
    | endOfWord => exact this
    | notAWord => exact this
  . intro result t' hb
    cases result with
    | error error => rw [pushBack_error hb]
    | ok _ =>
      obtain ⟨token, rest, hl, hrem⟩ := pushBack_remaining h.consistent hb
      refine ⟨token, rest, ?_, hrem⟩
      rw [← hl]
      exact (last_eq_lastReturned hstart rfl operations (pushBack_ok hb).1).symm
  . intro result t' hb
    cases result with
    | error error =>
      rw [pushBackWordChar_error h.consistent hb]
      exact remaining_congr ⟨sealed_consistent h.consistent, h.consistent, rfl, rfl⟩
    | ok _ =>
      have hs := wordStep_of_pushBackWordChar_ok hb
      obtain ⟨before, failed, hops, hfailed, hrun⟩ := exists_read_of_wordStep hstart rfl hs
      refine ⟨before, failed, hops, hfailed, hrun, ?_⟩
      apply pushBackWordChar_remaining (hstart.run before)
      rw [← run_append, hrun]
      exact hb

end Tokenizer

end TokenGrammar
