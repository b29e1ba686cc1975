import TokenGrammar.Proofs.Tokenizer.Consistent

/-!
What the leaves of a grammar see of a tokenizer: its settings, where the head for characters stands and
the token that comes next. The verdict of a leaf and what the next leaf sees depend on nothing else
(`Tokenizer.acceptToken_view`, `Tokenizer.acceptWordChar_view`).
-/

namespace TokenGrammar

def Config.afterChar (config : Config) (line : Nat) (cs : List Char) (cursor : Cursor) :
    Except LexError Token × Cursor :=
  if cs = [] then config.upcoming cursor
  else (.ok { kind := .word, text := String.ofList cs, line }, cursor)

structure View where
  config : Config
  stage : Tokenizer.Stage
  ahead : Except LexError Token × Cursor

namespace View

def movedTo (v : View) (cursor : Cursor) : View :=
  ⟨v.config, .idle, v.config.upcoming cursor⟩

def dropped (v : View) : View :=
  { v with stage := .idle }

def within (v : View) (line : Nat) (cs : List Char) (cursor : Cursor) : View :=
  ⟨v.config, if cs = [] then .atEnd else .inside, v.config.afterChar line cs cursor⟩

def acceptToken (v : View) (test : Token → Bool) : Except MatchError Bool × View :=
  match v.ahead with
  | (.error error, cursor) => (.error (.lex error), v.movedTo cursor)
  | (.ok token, cursor) => if test token then (.ok true, v.movedTo cursor) else (.ok false, v.dropped)

def acceptWordChar (v : View) (test : WordRead → Bool) : Except MatchError Bool × View :=
  if v.stage = .atEnd then
    if test .endOfWord then (.ok true, { v with stage := .past }) else (.ok false, v)
  else
    match v.ahead with
    | (.error error, cursor) => (.error (.lex error), v.movedTo cursor)
    | (.ok token, cursor) =>
      match token.kind, token.text.toList with
      | .word, c :: cs =>
        if test (.char c) then (.ok true, v.within token.line cs cursor)
        else (.ok false, if v.stage = .inside then v else v.dropped)
      | _, _ => (.ok (test .notAWord), v.dropped)

end View

namespace Tokenizer

def view (t : Tokenizer) : View :=
  ⟨t.config, t.stage, t.peek⟩

theorem view_held {t : Tokenizer} {token : Token} {cursor : Cursor} (hp : t.peek = (.ok token, cursor)) :
    (t.held token cursor).view = t.view.dropped := by
  simp only [view, View.dropped, hp]
  rfl

theorem view_refused {t : Tokenizer} {token : Token} {cursor : Cursor}
    (hp : t.peek = (.ok token, cursor)) : (t.refused token cursor).view = t.view.dropped := by
  exact view_held hp

theorem view_sealed (t : Tokenizer) : t.sealed.view = t.view := by
  rfl

theorem view_ended {t : Tokenizer} {word : ActiveWord} (h : t.Consistent) (hw : t.word = some word)
    (he : word.isExhausted = true) : (t.ended word).view = { t.view with stage := .past } := by
  have hpeek := peek_of_exhausted (ended_consistent h hw he) rfl he
  have hstage : (t.ended word).stage = .past :=
    stage_of_exhausted (t := t.ended word) rfl he
  unfold view
  rw [hpeek, hstage, peek_of_exhausted h hw he]
  rfl

theorem view_advanced {t : Tokenizer} {word : ActiveWord} (h : t.Consistent) (hw : t.word = some word)
    (he : word.isExhausted = false) {c : Char} {cs : List Char}
    (hd : word.chars.toList.drop word.pos = c :: cs) :
    (t.advanced word).view = t.view.within word.line cs t.cursor := by
  have hcons := advanced_consistent h hw he
  have hrest : word.chars.toList.drop (word.pos + 1) = cs := by
    rw [← List.drop_drop, hd]
    rfl
  have hlength := congrArg List.length hrest
  simp only [List.length_drop, Array.length_toList] at hlength
  unfold view View.within
  cases cs with
  | nil =>
    have he' : ({ word with pos := word.pos + 1 } : ActiveWord).isExhausted = true := by
      simp only [List.length_nil] at hlength
      simp only [ActiveWord.isExhausted, decide_eq_true_eq]
      omega
    obtain ⟨_, _, hreads⟩ := h.word word hw
    have hn := hreads.not_ended he
    rw [peek_of_exhausted hcons rfl he', stage_of_exhausted rfl he']
    simp [hn, Config.afterChar, advanced]
  | cons d ds =>
    have he' : ({ word with pos := word.pos + 1 } : ActiveWord).isExhausted = false := by
      simp only [List.length_cons] at hlength
      simp only [ActiveWord.isExhausted, decide_eq_false_iff_not]
      omega
    rw [peek_of_unread hcons rfl he', stage_of_unread rfl he']
    simp [ActiveWord.remainder, hrest, Config.afterChar, advanced]

theorem view_entered {t : Tokenizer} {token : Token} {cursor : Cursor} (h : token.ReadBefore cursor)
    (hk : token.kind = .word) {c : Char} {cs : List Char} (ht : token.text.toList = c :: cs) :
    (t.entered token cursor).view = t.view.within token.line cs cursor := by
  have hcons := entered_consistent (t := t) h hk
  unfold view View.within
  cases cs with
  | nil =>
    rw [peek_of_exhausted hcons rfl (by simp [ActiveWord.isExhausted, ht]),
      stage_of_exhausted rfl (by simp [ActiveWord.isExhausted, ht])]
    simp [Config.afterChar, entered, took]
  | cons d ds =>
    rw [peek_of_unread hcons rfl (by simp [ActiveWord.isExhausted, ht]),
      stage_of_unread rfl (by simp [ActiveWord.isExhausted, ht])]
    simp [ActiveWord.remainder, Config.afterChar, entered, took, ht]

theorem acceptToken_eq {t : Tokenizer} (h : t.Consistent) (test : Token → Bool) :
    t.acceptToken test =
      match t.peek with
      | (.error error, cursor) => (.error (.lex error), t.lost cursor)
      | (.ok token, cursor) =>
        if test token then (.ok true, t.took token cursor) else (.ok false, t.held token cursor) := by
  unfold acceptToken
  rw [nextToken_eq fun hr => (h.replay hr).1]
  cases hp : t.peek with
  | mk result cursor =>
    cases result with
    | error error => rfl
    | ok token =>
      dsimp only
      rw [pushBack_took]

theorem acceptWordChar_of_atEnd {t : Tokenizer} {word : ActiveWord} (hw : t.word = some word)
    (he : word.isExhausted = true) (hn : word.ended = false) (test : WordRead → Bool) :
    t.acceptWordChar test =
      if test .endOfWord then (.ok true, t.ended word) else (.ok false, t.sealed) := by
  unfold acceptWordChar
  rw [nextWordChar_of_atEnd hw he hn]
  dsimp only
  rw [pushBackWordChar_ended hw hn]

theorem acceptWordChar_of_inside {t : Tokenizer} (h : t.Consistent) {word : ActiveWord}
    (hw : t.word = some word) (he : word.isExhausted = false) {c : Char} {cs : List Char}
    (hd : word.chars.toList.drop word.pos = c :: cs) (test : WordRead → Bool) :
    t.acceptWordChar test =
      if test (.char c) then (.ok true, t.advanced word) else (.ok false, t.sealed) := by
  obtain ⟨c', cs', hd', hnext⟩ := nextWordChar_of_inside h hw he
  rw [hd, List.cons.injEq] at hd'
  unfold acceptWordChar
  rw [hnext, ← hd'.1]
  dsimp only
  rw [pushBackWordChar_advanced hw]

theorem acceptWordChar_of_outside {t : Tokenizer} (h : t.Consistent)
    (hs : t.stage = .idle ∨ t.stage = .past) (test : WordRead → Bool) :
    t.acceptWordChar test =
      match t.peek with
      | (.error error, cursor) => (.error (.lex error), t.lost cursor)
      | (.ok token, cursor) =>
        match token.kind, token.text.toList with
        | .word, c :: _ =>
          if test (.char c) then (.ok true, t.entered token cursor) else (.ok false, t.held token cursor)
        | _, _ =>
          if test .notAWord then (.ok true, t.refused token cursor)
          else (.ok false, t.held token cursor) := by
  unfold acceptWordChar
  rw [nextWordChar_of_outside h hs]
  cases hp : t.peek with
  | mk result cursor =>
    cases result with
    | error error => rfl
    | ok token =>
      by_cases hk : token.kind = .word
      . obtain ⟨c, cs, ht⟩ := exists_cons_of_readBefore (peek_readBefore h hp) hk
        simp only [hk, ht, ↓reduceIte]
        rw [activate_took t ht]
        dsimp only
        rw [pushBackWordChar_entered]
      . simp only [hk, ↓reduceIte]
        rw [pushBackWordChar_refused]
        cases hkind : token.kind with
        | word => exact absurd hkind hk
        | _ => rfl

theorem acceptToken_view {t : Tokenizer} (h : t.Consistent) (test : Token → Bool) :
    ((t.acceptToken test).1, (t.acceptToken test).2.view) = t.view.acceptToken test := by
  rw [acceptToken_eq h]
  unfold View.acceptToken
  have hahead : t.view.ahead = t.peek := rfl
  rw [hahead]
  cases hp : t.peek with
  | mk result cursor =>
    cases result with
    | error error => rfl
    | ok token =>
      dsimp only
      split
      . rfl
      . rw [view_held hp]

theorem acceptWordChar_view {t : Tokenizer} (h : t.Consistent) (test : WordRead → Bool) :
    ((t.acceptWordChar test).1, (t.acceptWordChar test).2.view) = t.view.acceptWordChar test := by
  have hahead : t.view.ahead = t.peek := rfl
  have hstage : t.view.stage = t.stage := rfl
  have outside (hs : t.stage = .idle ∨ t.stage = .past) :
      ((t.acceptWordChar test).1, (t.acceptWordChar test).2.view) = t.view.acceptWordChar test := by
    have hne : t.stage ≠ .atEnd ∧ t.stage ≠ .inside := by
      cases hs with
      | inl hs => simp [hs]
      | inr hs => simp [hs]
    rw [acceptWordChar_of_outside h hs]
    unfold View.acceptWordChar
    rw [hahead, hstage]
    simp only [hne.1, hne.2, ↓reduceIte]
    cases hp : t.peek with
    | mk result cursor =>
      cases result with
      | error error => rfl
      | ok token =>
        dsimp only
        split
        . next c cs hk ht =>
          split
          . rw [view_entered (peek_readBefore h hp) hk ht]
          . rw [view_held hp]
        . split
          . next htest => rw [view_refused hp, htest]
          . next htest =>
            simp only [Bool.not_eq_true] at htest
            rw [view_held hp, htest]
  cases hs : t.stage with
  | idle => exact outside (Or.inl hs)
  | past => exact outside (Or.inr hs)
  | atEnd =>
    obtain ⟨word, hw, he, hn⟩ := exists_word_of_atEnd hs
    rw [acceptWordChar_of_atEnd hw he hn]
    unfold View.acceptWordChar
    rw [hstage]
    simp only [hs, ↓reduceIte]
    split
    . rw [view_ended h hw he]
    . rw [view_sealed]
  | inside =>
    obtain ⟨word, hw, he⟩ := exists_word_of_inside hs
    obtain ⟨c, cs, hd, _⟩ := nextWordChar_of_inside h hw he
    rw [acceptWordChar_of_inside h hw he hd]
    unfold View.acceptWordChar
    rw [hahead, hstage, peek_of_unread h hw he]
    simp only [hs, reduceCtorEq, ↓reduceIte, ActiveWord.remainder, String.toList_ofList, hd]
    split
    . rw [view_advanced h hw he hd]
    . rw [view_sealed]

end Tokenizer

end TokenGrammar
