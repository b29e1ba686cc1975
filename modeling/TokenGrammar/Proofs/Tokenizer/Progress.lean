import TokenGrammar.Proofs.Tokenizer.View

/-!
Leaves only move forward. A leaf that returns a verdict leaves the tokens to come as they were, or takes
something off them; in the second case the mark is a new one, and in the first it changes only where the
active word is given up. The first way is `Tokenizer.Still`, the second is `Tokenizer.Gained`, and both
compose.
-/

namespace TokenGrammar

namespace Tokenizer

def workAhead : Except LexError Token × Cursor → Nat
  | (.ok token, cursor) => replayWork token + 2 * cursor.input.length
  | (.error _, cursor) => 2 * cursor.input.length + 1

def left (t : Tokenizer) : Nat :=
  workAhead t.peek

-- How the head for characters moves while nothing is taken off the tokens to come.
def Stage.Falls (stage stage' : Stage) : Prop :=
  stage' = stage ∨ stage' = .idle ∨ stage = .atEnd ∧ stage' = .past

structure Still (t t' : Tokenizer) : Prop where
  config : t'.config = t.config
  peek : t'.peek = t.peek
  tokens : t'.tokens = t.tokens
  stage : t.stage.Falls t'.stage
  pos : t'.stage ≠ .idle → t'.mark.wordPos = t.mark.wordPos

structure Gained (t t' : Tokenizer) : Prop where
  config : t'.config = t.config
  left : t'.left + 2 ≤ t.left
  count : t.tokens < t'.tokens ∨
    t'.tokens = t.tokens ∧ t.stage ≠ .idle ∧ (t'.stage = .idle ∨ t.mark.wordPos < t'.mark.wordPos)

def Forward (t t' : Tokenizer) : Prop :=
  t.Still t' ∨ t.Gained t'

theorem Stage.Falls.refl (stage : Stage) : stage.Falls stage := by
  exact Or.inl rfl

theorem Stage.Falls.trans {a b c : Stage} (hab : a.Falls b) (hbc : b.Falls c) : a.Falls c := by
  unfold Falls at *
  rcases hab with rfl | rfl | ⟨rfl, rfl⟩
  . exact hbc
  . rcases hbc with rfl | rfl | ⟨hb, _⟩
    . exact Or.inr (Or.inl rfl)
    . exact Or.inr (Or.inl rfl)
    . simp at hb
  . rcases hbc with rfl | rfl | ⟨hb, _⟩
    . exact Or.inr (Or.inr ⟨rfl, rfl⟩)
    . exact Or.inr (Or.inl rfl)
    . simp at hb

theorem Stage.Falls.idle {stage : Stage} (h : Stage.idle.Falls stage) : stage = .idle := by
  simpa [Falls] using h

theorem Still.refl (t : Tokenizer) : t.Still t := by
  exact ⟨rfl, rfl, rfl, Stage.Falls.refl _, fun _ => rfl⟩

theorem Still.left {t t' : Tokenizer} (h : t.Still t') : t'.left = t.left := by
  unfold Tokenizer.left
  rw [h.peek]

theorem Still.idle {t t' : Tokenizer} (h : t.Still t') (hs : t.stage = .idle) : t'.stage = .idle := by
  have := h.stage
  rw [hs] at this
  exact this.idle

theorem Still.trans {a b c : Tokenizer} (hab : a.Still b) (hbc : b.Still c) : a.Still c := by
  constructor
  . rw [hbc.config, hab.config]
  . rw [hbc.peek, hab.peek]
  . rw [hbc.tokens, hab.tokens]
  . exact hab.stage.trans hbc.stage
  . intro hc
    rw [hbc.pos hc]
    apply hab.pos
    intro hb
    exact hc (hbc.idle hb)

theorem Gained.trans {a b c : Tokenizer} (hab : a.Gained b) (hbc : b.Gained c) : a.Gained c := by
  have hl := hab.left
  have hl' := hbc.left
  constructor
  . rw [hbc.config, hab.config]
  . omega
  . rcases hab.count with hlt | ⟨heq, hactive, hpos⟩
    . rcases hbc.count with hlt' | ⟨heq', _⟩
      . left; omega
      . left; omega
    . rcases hbc.count with hlt' | ⟨heq', hactive', hpos'⟩
      . left; omega
      . refine Or.inr ⟨by omega, hactive, ?_⟩
        rcases hpos with hidle | hpos
        . exact absurd hidle hactive'
        . rcases hpos' with hidle' | hpos'
          . exact Or.inl hidle'
          . right; omega

theorem Still.trans_gained {a b c : Tokenizer} (hab : a.Still b) (hbc : b.Gained c) : a.Gained c := by
  have hl := hab.left
  have ht := hab.tokens
  have hl' := hbc.left
  constructor
  . rw [hbc.config, hab.config]
  . omega
  . rcases hbc.count with hlt | ⟨heq, hactive, hpos⟩
    . left; omega
    . refine Or.inr ⟨by omega, fun hidle => hactive (hab.idle hidle), ?_⟩
      rw [← hab.pos hactive]
      exact hpos

theorem Gained.trans_still {a b c : Tokenizer} (hab : a.Gained b) (hbc : b.Still c) : a.Gained c := by
  have hl := hab.left
  have ht := hbc.tokens
  have hl' := hbc.left
  constructor
  . rw [hbc.config, hab.config]
  . omega
  . rcases hab.count with hlt | ⟨heq, hactive, hpos⟩
    . left; omega
    . refine Or.inr ⟨by omega, hactive, ?_⟩
      by_cases hc : c.stage = .idle
      . exact Or.inl hc
      . rcases hpos with hidle | hpos
        . exact absurd (hbc.idle hidle) hc
        . right
          rw [hbc.pos hc]
          exact hpos

theorem Forward.refl (t : Tokenizer) : t.Forward t := by
  exact Or.inl (Still.refl t)

theorem Forward.trans {a b c : Tokenizer} (hab : a.Forward b) (hbc : b.Forward c) : a.Forward c := by
  rcases hab with hab | hab
  . rcases hbc with hbc | hbc
    . exact Or.inl (hab.trans hbc)
    . exact Or.inr (hab.trans_gained hbc)
  . rcases hbc with hbc | hbc
    . exact Or.inr (hab.trans_still hbc)
    . exact Or.inr (hab.trans hbc)

theorem Forward.trans_gained {a b c : Tokenizer} (hab : a.Forward b) (hbc : b.Gained c) : a.Gained c := by
  rcases hab with hab | hab
  . exact hab.trans_gained hbc
  . exact hab.trans hbc

theorem Gained.trans_forward {a b c : Tokenizer} (hab : a.Gained b) (hbc : b.Forward c) : a.Gained c := by
  rcases hbc with hbc | hbc
  . exact hab.trans_still hbc
  . exact hab.trans hbc

theorem Forward.config {t t' : Tokenizer} (h : t.Forward t') : t'.config = t.config := by
  rcases h with h | h
  . exact h.config
  . exact h.config

theorem Forward.left_le {t t' : Tokenizer} (h : t.Forward t') : t'.left ≤ t.left := by
  rcases h with h | h
  . exact Nat.le_of_eq h.left
  . have := h.left
    omega

theorem Forward.still {t t' : Tokenizer} (h : t.Forward t') (hl : t'.left = t.left) : t.Still t' := by
  rcases h with h | h
  . exact h
  . have := h.left
    omega

/-! The mark. -/

theorem wordPos_of_idle {t : Tokenizer} (h : t.stage = .idle) : t.mark.wordPos = 0 := by
  simp [mark, word_eq_none_of_idle h]

theorem wordPos_pos {t : Tokenizer} (h : t.Consistent) (hs : t.stage ≠ .idle) : 0 < t.mark.wordPos := by
  cases hw : t.word with
  | none => exact absurd (stage_of_none hw) hs
  | some word =>
    obtain ⟨_, _, hreads⟩ := h.word word hw
    simp only [mark, hw, Option.map_some, Option.getD_some]
    exact hreads.pos_pos

theorem mark_eq_iff {t t' : Tokenizer} :
    t'.mark = t.mark ↔ t'.tokens = t.tokens ∧ t'.mark.wordPos = t.mark.wordPos := by
  simp [mark]

theorem Still.mark_eq_iff {t t' : Tokenizer} (ht : t.Consistent) (h : t.Still t') :
    t'.mark = t.mark ↔ (t'.stage = .idle ↔ t.stage = .idle) := by
  rw [Tokenizer.mark_eq_iff]
  simp only [h.tokens, true_and]
  by_cases hidle' : t'.stage = .idle
  . rw [wordPos_of_idle hidle']
    by_cases hidle : t.stage = .idle
    . simp [wordPos_of_idle hidle, hidle, hidle']
    . have := wordPos_pos ht hidle
      simp only [hidle', hidle, iff_false, not_true_eq_false]
      omega
  . have hactive : t.stage ≠ .idle := fun hidle => hidle' (h.idle hidle)
    simp [h.pos hidle', hidle', hactive]

theorem Gained.mark_ne {t t' : Tokenizer} (ht : t.Consistent) (h : t.Gained t') : t'.mark ≠ t.mark := by
  intro hm
  obtain ⟨htokens, hpos⟩ := Tokenizer.mark_eq_iff.1 hm
  rcases h.count with hlt | ⟨_, hactive, hidle | hlt⟩
  . omega
  . have := wordPos_pos ht hactive
    rw [wordPos_of_idle hidle] at hpos
    omega
  . omega

theorem Forward.mark_eq_iff {t t' : Tokenizer} (ht : t.Consistent) (h : t.Forward t') :
    t'.mark = t.mark ↔ t'.left = t.left ∧ (t'.stage = .idle ↔ t.stage = .idle) := by
  rcases h with h | h
  . rw [h.mark_eq_iff ht]
    simp [h.left]
  . have := h.mark_ne ht
    have := h.left
    constructor
    . intro hm
      contradiction
    . intro hl
      omega

/-! What the leaves do. -/

theorem replayWork_pos {token : Token} {cursor : Cursor} (h : token.ReadBefore cursor)
    (hne : token.isEndOfStream = false) : 2 ≤ replayWork token := by
  unfold replayWork
  split
  . next hk =>
    obtain ⟨c, cs, ht⟩ := exists_cons_of_readBefore h hk
    have := congrArg List.length ht
    simp only [String.length_toList, List.length_cons] at this
    omega
  . next hk => simp [Token.isEndOfStream, hk] at hne
  . omega

theorem workAhead_upcoming_le (config : Config) (cursor : Cursor) :
    workAhead (config.upcoming cursor) ≤ 2 * cursor.input.length := by
  unfold Config.upcoming
  split
  . next token after heq =>
    cases hne : token.isEndOfStream with
    | true =>
      have hk : token.kind = .endOfStream := by simpa [Token.isEndOfStream] using hne
      have hs := config.scan_splits cursor
      rw [heq] at hs
      have := List.IsSuffix.length_le hs
      simp only [workAhead, replayWork, hk]
      omega
    | false =>
      have hlt := Config.scan_ok_length_lt heq hne
      rcases Config.scan_ok heq with hend | hfound
      . rw [hend.1] at hne
        simp [Token.isEndOfStream, Token.endOfStream] at hne
      . simp only [workAhead, replayWork]
        split
        . next hk =>
          have := hfound.1.word hk
          omega
        . omega
        . omega
  . next heq =>
    have := Config.scan_error_length_lt heq
    simp only [workAhead]
    omega

theorem workAhead_afterChar_le (config : Config) {token : Token} (cursor : Cursor) {c : Char}
    {cs : List Char} (hk : token.kind = .word) (ht : token.text.toList = c :: cs) :
    workAhead (config.afterChar token.line cs cursor) + 2 ≤ workAhead (.ok token, cursor) := by
  have hlength := congrArg List.length ht
  simp only [String.length_toList, List.length_cons] at hlength
  have hword : workAhead (.ok token, cursor) = 2 * token.text.length + 2 * cursor.input.length := by
    simp only [workAhead, replayWork, hk]
  rw [hword]
  unfold Config.afterChar
  split
  . have := workAhead_upcoming_le config cursor
    omega
  . simp only [workAhead, replayWork, String.length_ofList]
    omega

theorem held_still {t : Tokenizer} {token : Token} {cursor : Cursor}
    (hp : t.peek = (.ok token, cursor)) : t.Still (t.held token cursor) := by
  have hidle : (t.held token cursor).stage = .idle := rfl
  constructor
  . rfl
  . rw [peek_held, hp]
  . rfl
  . exact Or.inr (Or.inl hidle)
  . intro hne
    exact absurd hidle hne

theorem refused_still {t : Tokenizer} {token : Token} {cursor : Cursor}
    (hp : t.peek = (.ok token, cursor)) : t.Still (t.refused token cursor) := by
  have h := held_still hp
  exact ⟨h.config, h.peek, h.tokens, h.stage, h.pos⟩

theorem sealed_still (t : Tokenizer) : t.Still t.sealed := by
  exact ⟨rfl, rfl, rfl, Stage.Falls.refl _, fun _ => rfl⟩

theorem took_still {t : Tokenizer} {token : Token} {cursor : Cursor}
    (hp : t.peek = (.ok token, cursor)) (hread : token.ReadBefore cursor)
    (hend : token.isEndOfStream = true) : t.Still (t.took token cursor) := by
  have hidle : (t.took token cursor).stage = .idle := rfl
  obtain ⟨htoken, hnil⟩ := hread.atEnd hend
  constructor
  . rfl
  . rw [peek_took, hp]
    have : cursor = ⟨[], cursor.line⟩ := by rw [← hnil]
    rw [this, Config.upcoming, Config.scan_nil, htoken]
  . simp [took, hend]
  . exact Or.inr (Or.inl hidle)
  . intro hne
    exact absurd hidle hne

theorem took_gained {t : Tokenizer} {token : Token} {cursor : Cursor}
    (hp : t.peek = (.ok token, cursor)) (hread : token.ReadBefore cursor)
    (hend : token.isEndOfStream = false) : t.Gained (t.took token cursor) := by
  constructor
  . rfl
  . have := workAhead_upcoming_le t.config cursor
    have := replayWork_pos hread hend
    unfold left
    rw [peek_took, hp]
    simp only [workAhead] at *
    omega
  . simp [took, hend]

theorem ended_still {t : Tokenizer} {word : ActiveWord} (h : t.Consistent) (hw : t.word = some word)
    (he : word.isExhausted = true) (hn : word.ended = false) : t.Still (t.ended word) := by
  have hview := view_ended h hw he
  constructor
  . rfl
  . exact congrArg View.ahead hview
  . rfl
  . have hstage : (t.ended word).stage = .past := congrArg View.stage hview
    have hstage' : t.stage = .atEnd := by rw [stage_of_exhausted hw he, hn]; rfl
    exact Or.inr (Or.inr ⟨hstage', hstage⟩)
  . intro _
    simp [mark, ended, hw]

theorem advanced_gained {t : Tokenizer} {word : ActiveWord} (h : t.Consistent)
    (hw : t.word = some word) (he : word.isExhausted = false) : t.Gained (t.advanced word) := by
  obtain ⟨c, cs, hd, _⟩ := nextWordChar_of_inside h hw he
  have hahead := congrArg View.ahead (view_advanced h hw he hd)
  have htext : word.remainder.text.toList = c :: cs := by simpa [ActiveWord.remainder] using hd
  have hle := workAhead_afterChar_le t.config t.cursor rfl htext
  constructor
  . rfl
  . unfold left
    rw [peek_of_unread h hw he]
    rw [show (t.advanced word).peek = _ from hahead]
    exact hle
  . refine Or.inr ⟨rfl, ?_, ?_⟩
    . rw [stage_of_unread hw he]
      simp
    . right
      simp [mark, advanced, hw]

theorem entered_gained {t : Tokenizer} {token : Token} {cursor : Cursor}
    (hp : t.peek = (.ok token, cursor)) (hread : token.ReadBefore cursor) (hk : token.kind = .word) :
    t.Gained (t.entered token cursor) := by
  obtain ⟨c, cs, ht⟩ := exists_cons_of_readBefore hread hk
  have hahead := congrArg View.ahead (view_entered (t := t) hread hk ht)
  have hle := workAhead_afterChar_le t.config cursor hk ht
  constructor
  . rfl
  . unfold left
    rw [hp]
    rw [show (t.entered token cursor).peek = _ from hahead]
    exact hle
  . left
    simp [entered, took, Token.isEndOfStream, hk]

theorem took_forward {t : Tokenizer} {token : Token} {cursor : Cursor}
    (hp : t.peek = (.ok token, cursor)) (hread : token.ReadBefore cursor) :
    t.Forward (t.took token cursor) := by
  cases hend : token.isEndOfStream with
  | true => exact Or.inl (took_still hp hread hend)
  | false => exact Or.inr (took_gained hp hread hend)

structure Leads (t : Tokenizer) (attempt : Attempt) : Prop where
  consistent : attempt.2.Consistent
  forward : ∀ verdict, attempt.1 = .ok verdict → t.Forward attempt.2

theorem acceptToken_leads {t : Tokenizer} (h : t.Consistent) (test : Token → Bool) :
    t.Leads (t.acceptToken test) := by
  rw [acceptToken_eq h]
  split
  . next hp => exact ⟨lost_consistent h hp, by simp⟩
  . next hp =>
    have hread := peek_readBefore h hp
    split
    . exact ⟨took_consistent hread, fun _ _ => took_forward hp hread⟩
    . exact ⟨held_consistent hread, fun _ _ => Or.inl (held_still hp)⟩

theorem acceptToken_gained {t t' : Tokenizer} (h : t.Consistent) {test : Token → Bool}
    (ha : t.acceptToken test = (.ok true, t'))
    (htest : ∀ token, test token = true → token.isEndOfStream = false) : t.Gained t' := by
  rw [acceptToken_eq h] at ha
  split at ha
  . simp at ha
  . next hp =>
    split at ha
    . next ht =>
      simp only [Prod.mk.injEq, true_and] at ha
      rw [← ha]
      exact took_gained hp (peek_readBefore h hp) (htest _ ht)
    . simp at ha

theorem acceptWordChar_leads {t : Tokenizer} (h : t.Consistent) (test : WordRead → Bool) :
    t.Leads (t.acceptWordChar test) := by
  have outside (hs : t.stage = .idle ∨ t.stage = .past) : t.Leads (t.acceptWordChar test) := by
    rw [acceptWordChar_of_outside h hs]
    split
    . next hp => exact ⟨lost_consistent h hp, by simp⟩
    . next hp =>
      have hread := peek_readBefore h hp
      split
      . next hk _ =>
        split
        . exact ⟨entered_consistent hread hk, fun _ _ => Or.inr (entered_gained hp hread hk)⟩
        . exact ⟨held_consistent hread, fun _ _ => Or.inl (held_still hp)⟩
      . split
        . exact ⟨refused_consistent hread, fun _ _ => Or.inl (refused_still hp)⟩
        . exact ⟨held_consistent hread, fun _ _ => Or.inl (held_still hp)⟩
  cases hs : t.stage with
  | idle => exact outside (Or.inl hs)
  | past => exact outside (Or.inr hs)
  | atEnd =>
    obtain ⟨word, hw, he, hn⟩ := exists_word_of_atEnd hs
    rw [acceptWordChar_of_atEnd hw he hn]
    split
    . exact ⟨ended_consistent h hw he, fun _ _ => Or.inl (ended_still h hw he hn)⟩
    . exact ⟨sealed_consistent h, fun _ _ => Or.inl (sealed_still t)⟩
  | inside =>
    obtain ⟨word, hw, he⟩ := exists_word_of_inside hs
    obtain ⟨c, cs, hd, _⟩ := nextWordChar_of_inside h hw he
    rw [acceptWordChar_of_inside h hw he hd]
    split
    . exact ⟨advanced_consistent h hw he, fun _ _ => Or.inr (advanced_gained h hw he)⟩
    . exact ⟨sealed_consistent h, fun _ _ => Or.inl (sealed_still t)⟩

theorem acceptWordChar_gained {t t' : Tokenizer} (h : t.Consistent) {test : WordRead → Bool}
    (ha : t.acceptWordChar test = (.ok true, t')) (hend : test .endOfWord = false)
    (hnot : test .notAWord = false) : t.Gained t' := by
  have outside (hs : t.stage = .idle ∨ t.stage = .past) : t.Gained t' := by
    rw [acceptWordChar_of_outside h hs] at ha
    split at ha
    . simp at ha
    . next hp =>
      split at ha
      . next hk _ =>
        split at ha
        . simp only [Prod.mk.injEq, true_and] at ha
          rw [← ha]
          exact entered_gained hp (peek_readBefore h hp) hk
        . simp at ha
      . simp [hnot] at ha
  cases hs : t.stage with
  | idle => exact outside (Or.inl hs)
  | past => exact outside (Or.inr hs)
  | atEnd =>
    obtain ⟨word, hw, he, hn⟩ := exists_word_of_atEnd hs
    rw [acceptWordChar_of_atEnd hw he hn] at ha
    simp [hend] at ha
  | inside =>
    obtain ⟨word, hw, he⟩ := exists_word_of_inside hs
    obtain ⟨c, cs, hd, _⟩ := nextWordChar_of_inside h hw he
    rw [acceptWordChar_of_inside h hw he hd] at ha
    split at ha
    . simp only [Prod.mk.injEq, true_and] at ha
      rw [← ha]
      exact advanced_gained h hw he
    . simp at ha

-- The bound that a match computes is above the steps that are left.
theorem left_le_work {t : Tokenizer} (h : t.Consistent) :
    t.left + (if t.stage = .idle then 0 else 1) ≤ t.work := by
  have hup := workAhead_upcoming_le t.config t.cursor
  unfold work
  dsimp only
  cases hw : t.word with
  | none =>
    rw [stage_of_none hw]
    cases hr : t.replay with
    | true =>
      obtain ⟨_, token, hl⟩ := h.replay hr
      simp only [left, peek, hr, hl, workAhead, Option.getD_some, Option.map_some, ↓reduceIte]
      omega
    | false =>
      simp only [left, peek, hr, hw, Bool.false_eq_true, ↓reduceIte]
      omega
  | some word =>
    have hr := h.replay_eq_false hw
    cases he : word.isExhausted with
    | true =>
      unfold left
      rw [peek_of_exhausted h hw he]
      simp only [hr, Option.map_some, Option.getD_some, Bool.false_eq_true, ↓reduceIte]
      split <;> omega
    | false =>
      unfold left
      rw [peek_of_unread h hw he]
      simp only [workAhead, replayWork, ActiveWord.remainder, String.length_ofList, List.length_drop,
        Array.length_toList, hr, Option.map_some, Option.getD_some, Bool.false_eq_true, ↓reduceIte]
      split <;> omega

end Tokenizer

end TokenGrammar
