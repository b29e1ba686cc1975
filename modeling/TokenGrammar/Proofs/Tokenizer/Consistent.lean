import TokenGrammar.Match
import TokenGrammar.Proofs.Token.Lexeme

/-!
The fields of a tokenizer depend on each other: a token that is put back leaves no word active, an
active word is the last token, and what can be taken back says where the head stands. This module proves
that every operation keeps it so (`Tokenizer.Reachable.consistent`), and says for such a tokenizer what
each operation returns, in terms of the token that comes next (`Tokenizer.peek`).
-/

namespace TokenGrammar

structure Token.ReadBefore (token : Token) (cursor : Cursor) : Prop where
  text : token.kind = .word → token.text ≠ ""
  atEnd : token.isEndOfStream = true → token = .endOfStream cursor.line ∧ cursor.input = []

structure ActiveWord.Reads (word : ActiveWord) (token : Token) : Prop where
  kind : token.kind = .word
  chars : token.text.toList = word.chars.toList
  line : token.line = word.line
  pos_pos : 1 ≤ word.pos
  pos_le : word.pos ≤ word.chars.size
  ended : word.ended = true → word.pos = word.chars.size

theorem ActiveWord.Reads.not_ended {word : ActiveWord} {token : Token} (h : word.Reads token)
    (he : word.isExhausted = false) : word.ended = false := by
  cases hn : word.ended with
  | false => rfl
  | true =>
    have := h.ended hn
    simp only [ActiveWord.isExhausted, decide_eq_false_iff_not] at he
    omega

def Config.upcoming (config : Config) (cursor : Cursor) : Except LexError Token × Cursor :=
  match config.scan cursor with
  | (.ok token, after) => (.ok token, after)
  | (.error error, after) => (.error (.read error), after)

namespace Tokenizer

inductive Reachable : Tokenizer → Prop where
  | start (config : Config) (source : Source) : Reachable (.ofSource config source)
  | nextToken {t : Tokenizer} : Reachable t → Reachable t.nextToken.2
  | pushBack {t : Tokenizer} : Reachable t → Reachable t.pushBack.2
  | nextWordChar {t : Tokenizer} : Reachable t → Reachable t.nextWordChar.2
  | pushBackWordChar {t : Tokenizer} : Reachable t → Reachable t.pushBackWordChar.2
  | configure {t : Tokenizer} (config : Config) : Reachable t → Reachable (t.configure config)

def StepFits (t : Tokenizer) : Prop :=
  match t.wordStep with
  | none => True
  | some .started => ∃ word, t.word = some word ∧ word.pos = 1 ∧ word.ended = false
  | some .advanced => ∃ word, t.word = some word ∧ 2 ≤ word.pos ∧ word.ended = false
  | some .atEnd => ∃ word, t.word = some word ∧ word.ended = true
  | some .notAWord => t.replay = true

structure Consistent (t : Tokenizer) : Prop where
  last : ∀ token, t.last = some token → token.ReadBefore t.cursor
  replay : t.replay = true → t.word = none ∧ ∃ token, t.last = some token
  word : ∀ word, t.word = some word → ∃ token, t.last = some token ∧ word.Reads token
  step : t.StepFits
  tokens : ∀ token, t.last = some token → token.isEndOfStream = false → t.replay = false → 1 ≤ t.tokens

theorem Consistent.replay_eq_false {t : Tokenizer} (h : t.Consistent) {word : ActiveWord}
    (hw : t.word = some word) : t.replay = false := by
  cases hr : t.replay with
  | false => rfl
  | true => simp [(h.replay hr).1] at hw

def peek (t : Tokenizer) : Except LexError Token × Cursor :=
  if t.replay then (.ok (t.last.getD (.endOfStream t.cursor.line)), t.cursor)
  else
    match t.word with
    | none => t.config.upcoming t.cursor
    | some word =>
      if word.isExhausted then t.config.upcoming t.cursor else (.ok word.remainder, t.cursor)

def took (t : Tokenizer) (token : Token) (cursor : Cursor) : Tokenizer :=
  { config := t.config, cursor, last := some token
    tokens := if token.isEndOfStream then t.tokens else t.tokens + 1 }

def held (t : Tokenizer) (token : Token) (cursor : Cursor) : Tokenizer :=
  { config := t.config, cursor, last := some token, replay := true, tokens := t.tokens }

def lost (t : Tokenizer) (cursor : Cursor) : Tokenizer :=
  { config := t.config, cursor, last := t.last, tokens := t.tokens }

theorem fetch_eq {t : Tokenizer} (hr : t.replay = false) (hw : t.word = none) (hs : t.wordStep = none) :
    t.fetch =
      match t.config.upcoming t.cursor with
      | (.ok token, cursor) => (.ok token, t.took token cursor)
      | (.error error, cursor) => (.error error, t.lost cursor) := by
  unfold fetch Config.upcoming
  cases t.config.scan t.cursor with
  | mk result cursor =>
    cases result with
    | ok token => simp [deliver, took, hr, hw, hs]
    | error error => simp [lost, hr, hw, hs]

theorem nextToken_eq {t : Tokenizer} (h : t.replay = true → t.word = none) :
    t.nextToken =
      match t.peek with
      | (.ok token, cursor) => (.ok token, t.took token cursor)
      | (.error error, cursor) => (.error error, t.lost cursor) := by
  cases hr : t.replay with
  | true =>
    have hw := h hr
    simp [nextToken, peek, deliver, took, hr, hw]
  | false =>
    cases hw : t.word with
    | none =>
      simp only [nextToken, peek, hr, hw, Bool.false_eq_true, ↓reduceIte]
      exact fetch_eq (t := t.lost t.cursor) rfl rfl rfl
    | some word =>
      cases he : word.isExhausted with
      | true =>
        simp only [nextToken, peek, hr, hw, he, Bool.false_eq_true, ↓reduceIte]
        exact fetch_eq (t := t.lost t.cursor) rfl rfl rfl
      | false => simp [nextToken, peek, deliver, took, hr, hw, he]

theorem pushBack_took (t : Tokenizer) (token : Token) (cursor : Cursor) :
    (t.took token cursor).pushBack = (.ok (), t.held token cursor) := by
  cases he : token.isEndOfStream with
  | true => simp [pushBack, took, held, he]
  | false => simp [pushBack, took, held, he]

/-! The token that comes next, by where the tokenizer stands. -/

theorem peek_took (t : Tokenizer) (token : Token) (cursor : Cursor) :
    (t.took token cursor).peek = t.config.upcoming cursor := by
  rfl

theorem peek_held (t : Tokenizer) (token : Token) (cursor : Cursor) :
    (t.held token cursor).peek = (.ok token, cursor) := by
  rfl

theorem peek_of_exhausted {t : Tokenizer} {word : ActiveWord} (h : t.Consistent)
    (hw : t.word = some word) (he : word.isExhausted = true) :
    t.peek = t.config.upcoming t.cursor := by
  simp [peek, h.replay_eq_false hw, hw, he]

theorem peek_of_unread {t : Tokenizer} {word : ActiveWord} (h : t.Consistent)
    (hw : t.word = some word) (he : word.isExhausted = false) :
    t.peek = (.ok word.remainder, t.cursor) := by
  simp [peek, h.replay_eq_false hw, hw, he]

theorem configure_consistent {t : Tokenizer} (h : t.Consistent) (config : Config) :
    (t.configure config).Consistent := by
  exact ⟨h.last, h.replay, h.word, h.step, h.tokens⟩

theorem ofSource_consistent (config : Config) (source : Source) : (ofSource config source).Consistent := by
  constructor
  . intro token hl
    simp [ofSource] at hl
  . simp [ofSource]
  . intro word hw
    simp [ofSource] at hw
  . trivial
  . intro token hl
    simp [ofSource] at hl

theorem upcoming_readBefore {config : Config} {cursor after : Cursor} {token : Token}
    (h : config.upcoming cursor = (.ok token, after)) : token.ReadBefore after := by
  unfold Config.upcoming at h
  split at h
  . next heq =>
    simp only [Prod.mk.injEq, Except.ok.injEq] at h
    rw [h.1, h.2] at heq
    cases Config.scan_ok heq with
    | inl hend =>
      constructor
      . intro hk
        rw [hend.1] at hk
        simp [Token.endOfStream] at hk
      . intro _
        exact hend
    | inr hfound =>
      constructor
      . intro hk
        have := hfound.1.shape
        simpa only [Token.HasShape, hk] using this
      . intro hend
        rw [hfound.1.notEnd] at hend
        simp at hend
  . simp at h

theorem remainder_readBefore {word : ActiveWord} (h : word.isExhausted = false) (cursor : Cursor) :
    word.remainder.ReadBefore cursor := by
  simp only [ActiveWord.isExhausted, decide_eq_false_iff_not, Nat.not_le] at h
  constructor
  . intro _ ht
    have := congrArg String.length ht
    simp [ActiveWord.remainder] at this
    omega
  . intro hend
    simp [ActiveWord.remainder, Token.isEndOfStream] at hend

theorem peek_readBefore {t : Tokenizer} (h : t.Consistent) {token : Token} {cursor : Cursor}
    (hp : t.peek = (.ok token, cursor)) : token.ReadBefore cursor := by
  unfold peek at hp
  split at hp
  . next hr =>
    obtain ⟨last, hl⟩ := (h.replay hr).2
    simp only [hl, Option.getD_some, Prod.mk.injEq, Except.ok.injEq] at hp
    rw [← hp.1, ← hp.2]
    exact h.last last hl
  . split at hp
    . exact upcoming_readBefore hp
    . split at hp
      . exact upcoming_readBefore hp
      . next he =>
        simp only [Prod.mk.injEq, Except.ok.injEq] at hp
        rw [← hp.1]
        apply remainder_readBefore
        simpa using he

theorem took_consistent {t : Tokenizer} {token : Token} {cursor : Cursor}
    (h : token.ReadBefore cursor) : (t.took token cursor).Consistent := by
  constructor
  . intro last hl
    simp only [took, Option.some.injEq] at hl
    rw [← hl]
    exact h
  . simp [took]
  . simp [took]
  . trivial
  . intro last hl hne _
    simp only [took, Option.some.injEq] at hl
    simp [took, hl, hne]

theorem held_consistent {t : Tokenizer} {token : Token} {cursor : Cursor}
    (h : token.ReadBefore cursor) : (t.held token cursor).Consistent := by
  constructor
  . intro last hl
    simp only [held, Option.some.injEq] at hl
    rw [← hl]
    exact h
  . simp [held]
  . simp [held]
  . trivial
  . simp [held]

theorem peek_error {t : Tokenizer} {error : LexError} {cursor : Cursor}
    (hp : t.peek = (.error error, cursor)) :
    t.replay = false ∧ t.config.upcoming t.cursor = (.error error, cursor) := by
  unfold peek at hp
  split at hp
  . simp at hp
  . next hr =>
    refine ⟨by simpa using hr, ?_⟩
    split at hp
    . exact hp
    . split at hp
      . exact hp
      . simp at hp

theorem lost_consistent {t : Tokenizer} (h : t.Consistent) {error : LexError} {cursor : Cursor}
    (hp : t.peek = (.error error, cursor)) : (t.lost cursor).Consistent := by
  obtain ⟨hr, hu⟩ := peek_error hp
  constructor
  . intro token hl
    have hread := h.last token hl
    constructor
    . exact hread.text
    . intro hend
      -- At the end of the stream no fault can come.
      obtain ⟨_, hnil⟩ := hread.atEnd hend
      have : t.cursor = ⟨[], t.cursor.line⟩ := by rw [← hnil]
      rw [this, Config.upcoming, Config.scan_nil] at hu
      simp at hu
  . simp [lost]
  . simp [lost]
  . trivial
  . intro token hl hne _
    exact h.tokens token hl hne hr

theorem nextToken_consistent {t : Tokenizer} (h : t.Consistent) : t.nextToken.2.Consistent := by
  rw [nextToken_eq fun hr => (h.replay hr).1]
  split
  . next hp => exact took_consistent (peek_readBefore h hp)
  . next hp => exact lost_consistent h hp

theorem pushBack_consistent {t : Tokenizer} (h : t.Consistent) : t.pushBack.2.Consistent := by
  unfold pushBack
  split
  . exact h
  . split
    . exact h
    . next token hl =>
      constructor
      . exact h.last
      . intro _
        exact ⟨rfl, token, hl⟩
      . simp
      . trivial
      . simp

/-! The head for characters. -/

def sealed (t : Tokenizer) : Tokenizer :=
  { t with wordStep := none }

def advanced (t : Tokenizer) (word : ActiveWord) : Tokenizer :=
  { t with word := some { word with pos := word.pos + 1 }, wordStep := some .advanced }

def ended (t : Tokenizer) (word : ActiveWord) : Tokenizer :=
  { t with word := some { word with ended := true }, wordStep := some .atEnd }

def entered (t : Tokenizer) (token : Token) (cursor : Cursor) : Tokenizer :=
  { t.took token cursor with
    word := some { chars := token.text.toList.toArray, pos := 1, line := token.line, ended := false }
    wordStep := some .started }

def refused (t : Tokenizer) (token : Token) (cursor : Cursor) : Tokenizer :=
  { t.held token cursor with wordStep := some .notAWord }

theorem enterWord_eq {t : Tokenizer} (h : t.replay = true → t.word = none) :
    t.enterWord =
      match t.peek with
      | (.error error, cursor) => (.error error, t.lost cursor)
      | (.ok token, cursor) =>
        if token.kind = .word then (t.took token cursor).activate token
        else (.ok .notAWord, t.refused token cursor) := by
  unfold enterWord
  rw [nextToken_eq h]
  cases hp : t.peek with
  | mk result cursor =>
    cases result with
    | error error => rfl
    | ok token =>
      dsimp only
      rw [pushBack_took]
      rfl

theorem activate_took (t : Tokenizer) {token : Token} {cursor : Cursor} {c : Char} {cs : List Char}
    (ht : token.text.toList = c :: cs) :
    (t.took token cursor).activate token = (.ok (.char c), t.entered token cursor) := by
  simp [activate, entered, ht]

theorem exists_cons_of_readBefore {token : Token} {cursor : Cursor} (h : token.ReadBefore cursor)
    (hk : token.kind = .word) : ∃ c cs, token.text.toList = c :: cs := by
  cases ht : token.text.toList with
  | nil =>
    have : token.text = "" := by
      rw [← String.toList_inj, ht]
      rfl
    exact absurd this (h.text hk)
  | cons c cs => exact ⟨c, cs, rfl⟩

inductive Stage where
  | idle
  | inside
  | atEnd
  | past
  deriving DecidableEq

def stage (t : Tokenizer) : Stage :=
  match t.word with
  | none => .idle
  | some word => if word.isExhausted then if word.ended then .past else .atEnd else .inside

theorem stage_of_none {t : Tokenizer} (hw : t.word = none) : t.stage = .idle := by
  simp [stage, hw]

theorem stage_of_unread {t : Tokenizer} {word : ActiveWord} (hw : t.word = some word)
    (he : word.isExhausted = false) : t.stage = .inside := by
  simp [stage, hw, he]

theorem stage_of_exhausted {t : Tokenizer} {word : ActiveWord} (hw : t.word = some word)
    (he : word.isExhausted = true) : t.stage = if word.ended then .past else .atEnd := by
  simp [stage, hw, he]

theorem exists_word_of_inside {t : Tokenizer} (h : t.stage = .inside) :
    ∃ word, t.word = some word ∧ word.isExhausted = false := by
  cases hw : t.word with
  | none => simp [stage_of_none hw] at h
  | some word =>
    cases he : word.isExhausted with
    | false => exact ⟨word, rfl, he⟩
    | true =>
      rw [stage_of_exhausted hw he] at h
      split at h <;> simp at h

theorem exists_word_of_atEnd {t : Tokenizer} (h : t.stage = .atEnd) :
    ∃ word, t.word = some word ∧ word.isExhausted = true ∧ word.ended = false := by
  cases hw : t.word with
  | none => simp [stage_of_none hw] at h
  | some word =>
    cases he : word.isExhausted with
    | false => simp [stage_of_unread hw he] at h
    | true =>
      refine ⟨word, rfl, he, ?_⟩
      rw [stage_of_exhausted hw he] at h
      split at h
      . simp at h
      . next hn => simpa using hn

theorem exists_word_of_past {t : Tokenizer} (h : t.stage = .past) :
    ∃ word, t.word = some word ∧ word.isExhausted = true ∧ word.ended = true := by
  cases hw : t.word with
  | none => simp [stage_of_none hw] at h
  | some word =>
    cases he : word.isExhausted with
    | false => simp [stage_of_unread hw he] at h
    | true =>
      refine ⟨word, rfl, he, ?_⟩
      rw [stage_of_exhausted hw he] at h
      split at h
      . assumption
      . simp at h

theorem word_eq_none_of_idle {t : Tokenizer} (h : t.stage = .idle) : t.word = none := by
  cases hw : t.word with
  | none => rfl
  | some word =>
    cases he : word.isExhausted with
    | false => simp [stage_of_unread hw he] at h
    | true =>
      rw [stage_of_exhausted hw he] at h
      split at h <;> simp at h

theorem nextWordChar_of_atEnd {t : Tokenizer} {word : ActiveWord} (hw : t.word = some word)
    (he : word.isExhausted = true) (hn : word.ended = false) :
    t.nextWordChar = (.ok .endOfWord, t.ended word) := by
  simp only [ActiveWord.isExhausted, decide_eq_true_eq] at he
  simp [nextWordChar, hw, hn, advance, he, ended]

theorem nextWordChar_of_inside {t : Tokenizer} (h : t.Consistent) {word : ActiveWord}
    (hw : t.word = some word) (he : word.isExhausted = false) :
    ∃ c cs, word.chars.toList.drop word.pos = c :: cs ∧
      t.nextWordChar = (.ok (.char c), t.advanced word) := by
  obtain ⟨token, _, hreads⟩ := h.word word hw
  have hn := hreads.not_ended he
  simp only [ActiveWord.isExhausted, decide_eq_false_iff_not, Nat.not_le] at he
  refine ⟨word.chars[word.pos], word.chars.toList.drop (word.pos + 1), ?_, ?_⟩
  . rw [List.drop_eq_getElem_cons (by simpa using he)]
    simp
  . simp [nextWordChar, hw, hn, advance, he, advanced]

theorem nextWordChar_of_outside {t : Tokenizer} (h : t.Consistent)
    (hs : t.stage = .idle ∨ t.stage = .past) :
    t.nextWordChar =
      match t.peek with
      | (.error error, cursor) => (.error error, t.lost cursor)
      | (.ok token, cursor) =>
        if token.kind = .word then (t.took token cursor).activate token
        else (.ok .notAWord, t.refused token cursor) := by
  unfold nextWordChar
  cases hs with
  | inl hidle =>
    have hw := word_eq_none_of_idle hidle
    rw [hw]
    apply enterWord_eq
    intro _
    exact hw
  | inr hpast =>
    obtain ⟨word, hw, he, hn⟩ := exists_word_of_past hpast
    have hr := h.replay_eq_false hw
    have hpeek : { t with word := none }.peek = t.peek := by
      rw [peek_of_exhausted h hw he]
      simp [peek, hr]
    simp only [hw, hn, ↓reduceIte]
    rw [enterWord_eq (t := { t with word := none }) fun _ => rfl, hpeek]
    rfl

theorem sealed_consistent {t : Tokenizer} (h : t.Consistent) : t.sealed.Consistent := by
  exact ⟨h.last, h.replay, h.word, trivial, h.tokens⟩

theorem refused_consistent {t : Tokenizer} {token : Token} {cursor : Cursor}
    (h : token.ReadBefore cursor) : (t.refused token cursor).Consistent := by
  have := held_consistent (t := t) h
  exact ⟨this.last, this.replay, this.word, rfl, this.tokens⟩

theorem entered_consistent {t : Tokenizer} {token : Token} {cursor : Cursor}
    (h : token.ReadBefore cursor) (hk : token.kind = .word) : (t.entered token cursor).Consistent := by
  have htook := took_consistent (t := t) h
  obtain ⟨c, cs, ht⟩ := exists_cons_of_readBefore h hk
  constructor
  . exact htook.last
  . intro hr
    simp [entered, took] at hr
  . intro word hw
    simp only [entered, Option.some.injEq] at hw
    refine ⟨token, rfl, ?_⟩
    rw [← hw]
    constructor
    . exact hk
    . simp
    . rfl
    . simp
    . simp [ht]
    . simp
  . exact ⟨_, rfl, rfl, rfl⟩
  . exact htook.tokens

theorem advanced_consistent {t : Tokenizer} (h : t.Consistent) {word : ActiveWord}
    (hw : t.word = some word) (he : word.isExhausted = false) : (t.advanced word).Consistent := by
  obtain ⟨token, hl, hreads⟩ := h.word word hw
  have hn := hreads.not_ended he
  simp only [ActiveWord.isExhausted, decide_eq_false_iff_not, Nat.not_le] at he
  constructor
  . exact h.last
  . intro hr
    simp [(h.replay hr).1] at hw
  . intro word' hw'
    simp only [advanced, Option.some.injEq] at hw'
    refine ⟨token, hl, ?_⟩
    rw [← hw']
    constructor
    . exact hreads.kind
    . exact hreads.chars
    . exact hreads.line
    . simp
    . exact he
    . simp [hn]
  . have := hreads.pos_pos
    exact ⟨_, rfl, by dsimp only; omega, hn⟩
  . exact h.tokens

theorem ended_consistent {t : Tokenizer} (h : t.Consistent) {word : ActiveWord}
    (hw : t.word = some word) (he : word.isExhausted = true) : (t.ended word).Consistent := by
  obtain ⟨token, hl, hreads⟩ := h.word word hw
  simp only [ActiveWord.isExhausted, decide_eq_true_eq] at he
  constructor
  . exact h.last
  . intro hr
    simp [(h.replay hr).1] at hw
  . intro word' hw'
    simp only [ended, Option.some.injEq] at hw'
    refine ⟨token, hl, ?_⟩
    rw [← hw']
    constructor
    . exact hreads.kind
    . exact hreads.chars
    . exact hreads.line
    . exact hreads.pos_pos
    . exact hreads.pos_le
    . intro _
      exact Nat.le_antisymm hreads.pos_le he
  . exact ⟨_, rfl, rfl⟩
  . exact h.tokens

theorem nextWordChar_consistent {t : Tokenizer} (h : t.Consistent) : t.nextWordChar.2.Consistent := by
  have outside (hs : t.stage = .idle ∨ t.stage = .past) : t.nextWordChar.2.Consistent := by
    rw [nextWordChar_of_outside h hs]
    split
    . next hp => exact lost_consistent h hp
    . next token cursor hp =>
      have hread := peek_readBefore h hp
      split
      . next hk =>
        obtain ⟨c, cs, ht⟩ := exists_cons_of_readBefore hread hk
        rw [activate_took t ht]
        exact entered_consistent hread hk
      . exact refused_consistent hread
  cases hs : t.stage with
  | idle => exact outside (Or.inl hs)
  | past => exact outside (Or.inr hs)
  | inside =>
    obtain ⟨word, hw, he⟩ := exists_word_of_inside hs
    obtain ⟨c, cs, _, hnext⟩ := nextWordChar_of_inside h hw he
    rw [hnext]
    exact advanced_consistent h hw he
  | atEnd =>
    obtain ⟨word, hw, he, hn⟩ := exists_word_of_atEnd hs
    rw [nextWordChar_of_atEnd hw he hn]
    exact ended_consistent h hw he

theorem pushBackWordChar_consistent {t : Tokenizer} (h : t.Consistent) :
    t.pushBackWordChar.2.Consistent := by
  have hstep := h.step
  have hsealed := sealed_consistent h
  unfold StepFits at hstep
  unfold pushBackWordChar
  dsimp only
  split
  . exact hsealed
  . next hs =>
    rw [hs] at hstep
    obtain ⟨word, hw, hpos, hn⟩ := hstep
    obtain ⟨token, hl, hreads⟩ := h.word word hw
    constructor
    . exact h.last
    . intro hr
      simp [(h.replay hr).1] at hw
    . intro word' hw'
      simp only [hw, Option.map_some, Option.some.injEq] at hw'
      refine ⟨token, hl, ?_⟩
      rw [← hw']
      have hle := hreads.pos_le
      constructor
      . exact hreads.kind
      . exact hreads.chars
      . exact hreads.line
      . dsimp only
        omega
      . dsimp only
        omega
      . simp [hn]
    . trivial
    . exact h.tokens
  . exact pushBack_consistent hsealed
  . next hs =>
    rw [hs] at hstep
    obtain ⟨word, hw, hn⟩ := hstep
    obtain ⟨token, hl, hreads⟩ := h.word word hw
    constructor
    . exact h.last
    . intro hr
      simp [(h.replay hr).1] at hw
    . intro word' hw'
      simp only [hw, Option.map_some, Option.some.injEq] at hw'
      refine ⟨token, hl, ?_⟩
      rw [← hw']
      constructor
      . exact hreads.kind
      . exact hreads.chars
      . exact hreads.line
      . exact hreads.pos_pos
      . exact hreads.pos_le
      . simp
    . trivial
    . exact h.tokens
  . exact hsealed

theorem Reachable.consistent {t : Tokenizer} (h : t.Reachable) : t.Consistent := by
  induction h with
  | start config source => exact ofSource_consistent config source
  | nextToken _ ih => exact nextToken_consistent ih
  | pushBack _ ih => exact pushBack_consistent ih
  | nextWordChar _ ih => exact nextWordChar_consistent ih
  | pushBackWordChar _ ih => exact pushBackWordChar_consistent ih
  | configure config _ ih => exact configure_consistent ih config

/-! Taking back the read of a character leaves nothing of it. -/

theorem pushBackWordChar_advanced {t : Tokenizer} {word : ActiveWord} (hw : t.word = some word) :
    (t.advanced word).pushBackWordChar = (.ok (), t.sealed) := by
  simp [pushBackWordChar, advanced, sealed, hw]

theorem pushBackWordChar_ended {t : Tokenizer} {word : ActiveWord} (hw : t.word = some word)
    (hn : word.ended = false) : (t.ended word).pushBackWordChar = (.ok (), t.sealed) := by
  obtain ⟨chars, pos, line, ended⟩ := word
  dsimp only at hn
  rw [hn] at hw
  simp [pushBackWordChar, Tokenizer.ended, sealed, hw]

theorem pushBackWordChar_entered (t : Tokenizer) (token : Token) (cursor : Cursor) :
    (t.entered token cursor).pushBackWordChar = (.ok (), t.held token cursor) := by
  cases he : token.isEndOfStream with
  | true => simp [pushBackWordChar, entered, pushBack, took, held, he]
  | false => simp [pushBackWordChar, entered, pushBack, took, held, he]

theorem pushBackWordChar_refused (t : Tokenizer) (token : Token) (cursor : Cursor) :
    (t.refused token cursor).pushBackWordChar = (.ok (), t.held token cursor) := by
  rfl

end Tokenizer

end TokenGrammar
