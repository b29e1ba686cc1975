import Mathlib.Data.List.Forall2
import TokenGrammar.Proofs.Match.Bounds
import TokenGrammar.Proofs.Match.Fault
import TokenGrammar.Proofs.Tokenizer.Remaining

/-!
Two documents that no rule of a grammar can tell apart. A `Likeness` says which characters, lines and
places of the one may stand for which of the other; it holds the proofs that scanning keeps to it and that
the leaves do not see the difference. Then all fields of the two tokenizers stay related along a match, and
the verdicts are the same (`Likeness.matchStream_twin`).
-/

namespace TokenGrammar

structure Token.Like (char : Char → Char → Prop) (line : Nat → Nat → Prop) (a b : Token) : Prop where
  kind : a.kind = b.kind
  text : List.Forall₂ char a.text.toList b.text.toList
  lines : line a.line b.line

structure Likeness (config : Config) where
  char : Char → Char → Prop
  line : Nat → Nat → Prop
  place : Cursor → Cursor → Prop
  line_of_place {cursor cursor' : Cursor} : place cursor cursor' → line cursor.line cursor'.line
  upcoming {cursor cursor' : Cursor} : place cursor cursor' →
    ∃ token after token' after', config.upcoming cursor = (.ok token, after) ∧
      config.upcoming cursor' = (.ok token', after') ∧ token.Like char line token' ∧ place after after'
  wordsEqual (word : String) {text text' : String} : List.Forall₂ char text.toList text'.toList →
    wordsEqual config.caseSensitive text word = wordsEqual config.caseSensitive text' word
  accepts (charClass : CharClass) {c c' : Char} : char c c' →
    charClass.accepts config.caseSensitive (.char c) = charClass.accepts config.caseSensitive (.char c')

theorem Token.Like.isEndOfStream {char : Char → Char → Prop} {line : Nat → Nat → Prop} {a b : Token}
    (h : a.Like char line b) : a.isEndOfStream = b.isEndOfStream := by
  unfold Token.isEndOfStream
  rw [h.kind]

namespace Tokenizer

theorem acceptWordChar_of_word {t : Tokenizer} (h : t.Consistent) (hs : t.stage = .idle ∨ t.stage = .past)
    {token : Token} {cursor : Cursor} (hp : t.peek = (.ok token, cursor)) (hk : token.kind = .word)
    {c : Char} {cs : List Char} (ht : token.text.toList = c :: cs) (test : WordRead → Bool) :
    t.acceptWordChar test =
      if test (.char c) then (.ok true, t.entered token cursor) else (.ok false, t.held token cursor) := by
  rw [acceptWordChar_of_outside h hs, hp]
  simp only [hk, ht]

theorem acceptWordChar_of_notAWord {t : Tokenizer} (h : t.Consistent)
    (hs : t.stage = .idle ∨ t.stage = .past) {token : Token} {cursor : Cursor}
    (hp : t.peek = (.ok token, cursor)) (hk : token.kind ≠ .word) (test : WordRead → Bool) :
    t.acceptWordChar test =
      if test .notAWord then (.ok true, t.refused token cursor)
      else (.ok false, t.held token cursor) := by
  rw [acceptWordChar_of_outside h hs, hp]
  dsimp only
  split
  . contradiction
  . rfl

end Tokenizer

namespace Likeness

variable {config : Config} (l : Likeness config)

abbrev Tokens (a b : Token) : Prop :=
  a.Like l.char l.line b

structure Words (word word' : ActiveWord) : Prop where
  chars : List.Forall₂ l.char word.chars.toList word'.chars.toList
  pos : word.pos = word'.pos
  line : l.line word.line word'.line
  ended : word.ended = word'.ended

structure Twin (t t' : Tokenizer) : Prop where
  consistent : t.Consistent
  consistent' : t'.Consistent
  settings : t.config = config
  settings' : t'.config = config
  place : l.place t.cursor t'.cursor
  last : Option.Rel l.Tokens t.last t'.last
  replay : t.replay = t'.replay
  word : Option.Rel l.Words t.word t'.word
  tokens : t.tokens = t'.tokens

variable {l}

theorem Words.unread {word word' : ActiveWord} (h : l.Words word word') :
    List.Forall₂ l.char (word.chars.toList.drop word.pos) (word'.chars.toList.drop word'.pos) := by
  rw [h.pos]
  apply List.forall₂_drop
  exact h.chars

theorem Words.isExhausted {word word' : ActiveWord} (h : l.Words word word') :
    word.isExhausted = word'.isExhausted := by
  have hsize := h.chars.length_eq
  simp only [Array.length_toList] at hsize
  unfold ActiveWord.isExhausted
  rw [h.pos, hsize]

theorem Words.remainder {word word' : ActiveWord} (h : l.Words word word') :
    l.Tokens word.remainder word'.remainder := by
  constructor
  . rfl
  . simp only [ActiveWord.remainder, String.toList_ofList]
    exact h.unread
  . exact h.line

namespace Twin

variable {t t' : Tokenizer}

theorem stage (h : l.Twin t t') : t.stage = t'.stage := by
  have hword := h.word
  unfold Tokenizer.stage
  generalize t.word = word at hword
  generalize t'.word = word' at hword
  cases hword with
  | none => rfl
  | some hw =>
    dsimp only
    rw [hw.isExhausted, hw.ended]

theorem mark (h : l.Twin t t') : t.mark = t'.mark := by
  have hword := h.word
  unfold Tokenizer.mark
  rw [h.tokens]
  generalize t.word = word at hword
  generalize t'.word = word' at hword
  cases hword with
  | none => rfl
  | some hw => simp [hw.pos]

theorem currentLine (h : l.Twin t t') : l.line t.currentLine t'.currentLine := by
  have hlast := h.last
  have hline := l.line_of_place h.place
  unfold Tokenizer.currentLine
  rw [h.replay]
  generalize t.last = last at hlast
  generalize t'.last = last' at hlast
  cases hlast with
  | none => exact hline
  | some htoken =>
    dsimp only
    split
    . exact htoken.lines
    . exact hline

theorem peek (h : l.Twin t t') :
    ∃ token cursor token' cursor', t.peek = (.ok token, cursor) ∧ t'.peek = (.ok token', cursor') ∧
      l.Tokens token token' ∧ l.place cursor cursor' := by
  have hlast := h.last
  have hword := h.word
  have hupcoming := l.upcoming h.place
  unfold Tokenizer.peek
  rw [h.replay, h.settings, h.settings']
  cases hr : t'.replay with
  | true =>
    obtain ⟨token, hl⟩ := (h.consistent'.replay hr).2
    rw [hl] at hlast ⊢
    generalize t.last = last at hlast
    cases hlast with
    | some htoken => exact ⟨_, _, _, _, rfl, rfl, htoken, h.place⟩
  | false =>
    generalize t.word = word at hword
    generalize t'.word = word' at hword
    cases hword with
    | none => exact hupcoming
    | some hw =>
      simp only [hw.isExhausted, Bool.false_eq_true, ↓reduceIte]
      split
      . exact hupcoming
      . exact ⟨_, _, _, _, rfl, rfl, hw.remainder, h.place⟩

section

variable (h : l.Twin t t') {token token' : Token} {cursor cursor' : Cursor}
  (hp : t.peek = (.ok token, cursor)) (hp' : t'.peek = (.ok token', cursor'))
  (htoken : l.Tokens token token') (hplace : l.place cursor cursor')

include h hp hp' htoken hplace

theorem took : l.Twin (t.took token cursor) (t'.took token' cursor') := by
  constructor
  . apply Tokenizer.took_consistent
    exact Tokenizer.peek_readBefore h.consistent hp
  . apply Tokenizer.took_consistent
    exact Tokenizer.peek_readBefore h.consistent' hp'
  . exact h.settings
  . exact h.settings'
  . exact hplace
  . exact .some htoken
  . rfl
  . exact .none
  . simp only [Tokenizer.took, htoken.isEndOfStream, h.tokens]

theorem held : l.Twin (t.held token cursor) (t'.held token' cursor') := by
  have hread := Tokenizer.peek_readBefore h.consistent hp
  have hread' := Tokenizer.peek_readBefore h.consistent' hp'
  exact { h.took hp hp' htoken hplace with
    consistent := Tokenizer.held_consistent hread
    consistent' := Tokenizer.held_consistent hread'
    replay := rfl
    tokens := h.tokens }

theorem refused : l.Twin (t.refused token cursor) (t'.refused token' cursor') := by
  have hread := Tokenizer.peek_readBefore h.consistent hp
  have hread' := Tokenizer.peek_readBefore h.consistent' hp'
  exact { h.held hp hp' htoken hplace with
    consistent := Tokenizer.refused_consistent hread
    consistent' := Tokenizer.refused_consistent hread' }

theorem entered (hk : token.kind = .word) :
    l.Twin (t.entered token cursor) (t'.entered token' cursor') := by
  have hread := Tokenizer.peek_readBefore h.consistent hp
  have hread' := Tokenizer.peek_readBefore h.consistent' hp'
  exact { h.took hp hp' htoken hplace with
    consistent := Tokenizer.entered_consistent hread hk
    consistent' := Tokenizer.entered_consistent hread' (htoken.kind ▸ hk)
    word := .some ⟨htoken.text, rfl, htoken.lines, rfl⟩ }

end

theorem sealed (h : l.Twin t t') : l.Twin t.sealed t'.sealed := by
  exact { h with
    consistent := Tokenizer.sealed_consistent h.consistent
    consistent' := Tokenizer.sealed_consistent h.consistent' }

section

variable (h : l.Twin t t') {word word' : ActiveWord} (hw : t.word = some word)
  (hw' : t'.word = some word') (hwords : l.Words word word')

include h hw hw' hwords

theorem ended (he : word.isExhausted = true) : l.Twin (t.ended word) (t'.ended word') := by
  exact { h with
    consistent := Tokenizer.ended_consistent h.consistent hw he
    consistent' := Tokenizer.ended_consistent h.consistent' hw' (hwords.isExhausted ▸ he)
    word := .some ⟨hwords.chars, hwords.pos, hwords.line, rfl⟩ }

theorem advanced (he : word.isExhausted = false) : l.Twin (t.advanced word) (t'.advanced word') := by
  exact { h with
    consistent := Tokenizer.advanced_consistent h.consistent hw he
    consistent' := Tokenizer.advanced_consistent h.consistent' hw' (hwords.isExhausted ▸ he)
    word := .some ⟨hwords.chars, congrArg (· + 1) hwords.pos, hwords.line, hwords.ended⟩ }

end

theorem exists_words (h : l.Twin t t') {word : ActiveWord} (hw : t.word = some word) :
    ∃ word', t'.word = some word' ∧ l.Words word word' := by
  have hword := h.word
  rw [hw] at hword
  generalize t'.word = word' at hword
  cases hword with
  | some hwords => exact ⟨_, rfl, hwords⟩

/-! The leaves. -/

theorem acceptToken (h : l.Twin t t') {test : Token → Bool}
    (htest : ∀ a b, l.Tokens a b → test a = test b) :
    Same l.Twin l.Twin (t.acceptToken test) (t'.acceptToken test) := by
  obtain ⟨token, cursor, token', cursor', hp, hp', htoken, hplace⟩ := h.peek
  rw [Tokenizer.acceptToken_eq h.consistent, Tokenizer.acceptToken_eq h.consistent', hp, hp']
  dsimp only
  rw [htest token token' htoken]
  split
  . apply Same.ok
    exact h.took hp hp' htoken hplace
  . apply Same.ok
    exact h.held hp hp' htoken hplace

section

variable (h : l.Twin t t') {test : WordRead → Bool}
  (htest : ∀ c c', l.char c c' → test (.char c) = test (.char c'))

include h

theorem acceptWordChar_atEnd (hs : t.stage = .atEnd) :
    Same l.Twin l.Twin (t.acceptWordChar test) (t'.acceptWordChar test) := by
  obtain ⟨word, hw, he, hn⟩ := Tokenizer.exists_word_of_atEnd hs
  obtain ⟨word', hw', hwords⟩ := h.exists_words hw
  have he' : word'.isExhausted = true := hwords.isExhausted ▸ he
  have hn' : word'.ended = false := hwords.ended ▸ hn
  rw [Tokenizer.acceptWordChar_of_atEnd hw he hn, Tokenizer.acceptWordChar_of_atEnd hw' he' hn']
  split
  . apply Same.ok
    exact h.ended hw hw' hwords he
  . apply Same.ok
    exact h.sealed

include htest

theorem acceptWordChar_inside (hs : t.stage = .inside) :
    Same l.Twin l.Twin (t.acceptWordChar test) (t'.acceptWordChar test) := by
  obtain ⟨word, hw, he⟩ := Tokenizer.exists_word_of_inside hs
  obtain ⟨word', hw', hwords⟩ := h.exists_words hw
  have he' : word'.isExhausted = false := hwords.isExhausted ▸ he
  obtain ⟨c, cs, hd, _⟩ := Tokenizer.nextWordChar_of_inside h.consistent hw he
  obtain ⟨c', cs', hd', _⟩ := Tokenizer.nextWordChar_of_inside h.consistent' hw' he'
  have hunread := hwords.unread
  rw [hd, hd', List.forall₂_cons] at hunread
  rw [Tokenizer.acceptWordChar_of_inside h.consistent hw he hd,
    Tokenizer.acceptWordChar_of_inside h.consistent' hw' he' hd', htest c c' hunread.1]
  split
  . apply Same.ok
    exact h.advanced hw hw' hwords he
  . apply Same.ok
    exact h.sealed

theorem acceptWordChar_outside (hs : t.stage = .idle ∨ t.stage = .past) :
    Same l.Twin l.Twin (t.acceptWordChar test) (t'.acceptWordChar test) := by
  have hs' := hs
  rw [h.stage] at hs'
  obtain ⟨token, cursor, token', cursor', hp, hp', htoken, hplace⟩ := h.peek
  by_cases hk : token.kind = .word
  . have hk' : token'.kind = .word := htoken.kind ▸ hk
    obtain ⟨c, cs, hc⟩ :=
      Tokenizer.exists_cons_of_readBefore (Tokenizer.peek_readBefore h.consistent hp) hk
    obtain ⟨c', cs', hc'⟩ :=
      Tokenizer.exists_cons_of_readBefore (Tokenizer.peek_readBefore h.consistent' hp') hk'
    have htext := htoken.text
    rw [hc, hc', List.forall₂_cons] at htext
    rw [Tokenizer.acceptWordChar_of_word h.consistent hs hp hk hc,
      Tokenizer.acceptWordChar_of_word h.consistent' hs' hp' hk' hc', htest c c' htext.1]
    split
    . apply Same.ok
      exact h.entered hp hp' htoken hplace hk
    . apply Same.ok
      exact h.held hp hp' htoken hplace
  . have hk' : token'.kind ≠ .word := htoken.kind ▸ hk
    rw [Tokenizer.acceptWordChar_of_notAWord h.consistent hs hp hk,
      Tokenizer.acceptWordChar_of_notAWord h.consistent' hs' hp' hk']
    split
    . apply Same.ok
      exact h.refused hp hp' htoken hplace
    . apply Same.ok
      exact h.held hp hp' htoken hplace

theorem acceptWordChar : Same l.Twin l.Twin (t.acceptWordChar test) (t'.acceptWordChar test) := by
  cases hs : t.stage with
  | idle => exact h.acceptWordChar_outside htest (Or.inl hs)
  | past => exact h.acceptWordChar_outside htest (Or.inr hs)
  | inside => exact h.acceptWordChar_inside htest hs
  | atEnd => exact h.acceptWordChar_atEnd hs

end

theorem readAll (h : l.Twin t t') : List.Forall₂ l.Tokens t.readAll.tokens t'.readAll.tokens := by
  apply Tokenizer.readAll_related _ h
  intro t t' h
  obtain ⟨token, cursor, token', cursor', hp, hp', htoken, hplace⟩ := h.peek
  refine ⟨token, t.took token cursor, token', t'.took token' cursor', ?_, ?_, htoken, htoken.kind, ?_⟩
  . rw [Tokenizer.nextToken_eq fun hr => (h.consistent.replay hr).1, hp]
  . rw [Tokenizer.nextToken_eq fun hr => (h.consistent'.replay hr).1, hp']
  . exact h.took hp hp' htoken hplace

end Twin

/-! The rules. -/

theorem test_eq (l : Likeness config) {test : Token → Bool}
    (ht : Rule.TokenTest config.caseSensitive test) {a b : Token} (h : l.Tokens a b) : test a = test b := by
  cases ht with
  | literal word =>
    unfold Rule.literalAccepts
    rw [h.isEndOfStream, l.wordsEqual word h.text]
  | kind kind => simp only [h.kind]

theorem twin_lockstep (l : Likeness config) : Lockstep l.Twin l.Twin := by
  constructor
  . intro t t' h
    exact ⟨h.consistent, h.consistent'⟩
  . intro t t' h
    rw [h.settings, h.settings']
  . intro t t' h
    exact h
  . intro t t' test htest h
    rw [h.settings] at htest
    apply h.acceptToken
    intro a b hab
    exact l.test_eq htest hab
  . intro t t' charClass h
    rw [h.settings]
    apply h.acceptWordChar
    intro c c' hc
    exact l.accepts charClass hc

theorem twin_synced (l : Likeness config) : Synced l.Twin := by
  intro t t' u u' ht hu _ _
  rw [ht.mark, hu.mark]

theorem twin_ofSource (l : Likeness config) {source source' : Source}
    (h : l.place ⟨source, 1⟩ ⟨source', 1⟩) :
    l.Twin (.ofSource config source) (.ofSource config source') := by
  constructor
  . apply Tokenizer.ofSource_consistent
  . apply Tokenizer.ofSource_consistent
  . rfl
  . rfl
  . exact h
  . exact .none
  . rfl
  . exact .none
  . rfl

theorem matchStream_twin {b : Builder} {grammar : Grammar} (hb : b.build = .ok grammar)
    (l : Likeness grammar.config) {source source' : Source} (h : l.place ⟨source, 1⟩ ⟨source', 1⟩) :
    (grammar.matchStream (grammar.tokenizer source)).1 =
      (grammar.matchStream (grammar.tokenizer source')).1 ∧
    l.Twin (grammar.matchStream (grammar.tokenizer source)).2
      (grammar.matchStream (grammar.tokenizer source')).2 := by
  have htwin := l.twin_ofSource h
  have hsim : Simulates l.Twin l.Twin (grammar.matchStream (grammar.tokenizer source))
      (grammar.matchStream (grammar.tokenizer source')) :=
    Arena.matchRule_lockstep l.twin_lockstep l.twin_synced grammar.root htwin
  rcases hsim with hend | hsame
  . exact absurd hend (Grammar.matchRule_not_endless hb htwin.consistent grammar.root)
  . refine ⟨hsame.result, ?_⟩
    cases hresult : (grammar.matchStream (grammar.tokenizer source)).1 with
    | ok verdict => exact hsame.verdict verdict hresult
    | error error => exact hsame.error error hresult

end Likeness

end TokenGrammar
