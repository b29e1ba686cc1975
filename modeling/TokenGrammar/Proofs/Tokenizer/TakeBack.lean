import TokenGrammar.Proofs.Match.Transparency

/-!
Whoever reads a token stream with its two heads sees no more of it than its settings, the token that comes
next, and whether the end of a word is to be reported (`Akin.readings`). Taking back the read of a
character restores these, so that everything is read as if there had been no such read
(`Tokenizer.pushBackWordChar_readings`).
-/

namespace TokenGrammar

def View.wordRead (v : View) : Except LexError WordRead :=
  if v.stage = .atEnd then .ok .endOfWord
  else
    v.ahead.1.map fun token =>
      match token.kind, token.text.toList with
      | .word, c :: _ => .char c
      | _, _ => .notAWord

theorem View.Kin.wordRead {v v' : View} (h : v.Kin v') : v.wordRead = v'.wordRead := by
  unfold View.wordRead
  rw [h.ahead]
  simp only [h.atEnd]

namespace Tokenizer

inductive Head where
  | tokens
  | characters

inductive Reading where
  | token (result : Except LexError Token)
  | character (result : Except LexError WordRead)

def read (t : Tokenizer) : Head → Reading × Tokenizer
  | .tokens => (.token t.nextToken.1, t.nextToken.2)
  | .characters => (.character t.nextWordChar.1, t.nextWordChar.2)

def readings (t : Tokenizer) : List Head → List Reading
  | [] => []
  | head :: heads => (t.read head).1 :: (t.read head).2.readings heads

/-! A read is a leaf that is content with everything. -/

theorem nextToken_fst {t : Tokenizer} (h : t.Consistent) : t.nextToken.1 = t.peek.1 := by
  rw [nextToken_eq fun hr => (h.replay hr).1]
  split
  . next hp => rw [hp]
  . next hp => rw [hp]

theorem nextToken_snd (t : Tokenizer) : t.nextToken.2 = (t.acceptToken fun _ => true).2 := by
  unfold acceptToken
  split
  . next heq => rw [heq]
  . next heq =>
    rw [heq]
    rfl

theorem nextWordChar_fst {t : Tokenizer} (h : t.Consistent) : t.nextWordChar.1 = t.view.wordRead := by
  have outside (hs : t.stage = .idle ∨ t.stage = .past) : t.nextWordChar.1 = t.view.wordRead := by
    have hend : t.view.stage ≠ .atEnd := by
      rintro (hend : t.stage = .atEnd)
      simp [hend] at hs
    unfold View.wordRead
    rw [nextWordChar_of_outside h hs, if_neg hend, show t.view.ahead = t.peek from rfl]
    cases hp : t.peek with
    | mk result cursor =>
      cases result with
      | error error => rfl
      | ok token =>
        by_cases hk : token.kind = .word
        . obtain ⟨c, cs, ht⟩ := exists_cons_of_readBefore (peek_readBefore h hp) hk
          simp only [hk, ↓reduceIte, Except.map]
          rw [activate_took t ht, ht]
        . simp only [hk, ↓reduceIte, Except.map]
          cases hkind : token.kind with
          | word => exact absurd hkind hk
          | _ => rfl
  cases hs : t.stage with
  | idle => exact outside (Or.inl hs)
  | past => exact outside (Or.inr hs)
  | atEnd =>
    obtain ⟨word, hw, he, hn⟩ := exists_word_of_atEnd hs
    have hend : t.view.stage = .atEnd := hs
    rw [nextWordChar_of_atEnd hw he hn, View.wordRead, if_pos hend]
  | inside =>
    obtain ⟨word, hw, he⟩ := exists_word_of_inside hs
    obtain ⟨c, cs, hd, hnext⟩ := nextWordChar_of_inside h hw he
    have hend : t.view.stage ≠ .atEnd := by
      rintro (hend : t.stage = .atEnd)
      simp [hend] at hs
    rw [hnext, View.wordRead, if_neg hend, show t.view.ahead = t.peek from rfl, peek_of_unread h hw he]
    simp [Except.map, ActiveWord.remainder, hd]

theorem nextWordChar_snd (t : Tokenizer) : t.nextWordChar.2 = (t.acceptWordChar fun _ => true).2 := by
  unfold acceptWordChar
  split
  . next heq => rw [heq]
  . next heq =>
    rw [heq]
    rfl

end Tokenizer

open Tokenizer

theorem Akin.read {t t' : Tokenizer} (h : Akin t t') (head : Head) :
    (t.read head).1 = (t'.read head).1 ∧ Akin (t.read head).2 (t'.read head).2 := by
  obtain ⟨hkin, ht, ht'⟩ := h
  cases head with
  | tokens =>
    have hview := hkin.acceptToken fun _ => true
    rw [← acceptToken_view ht, ← acceptToken_view ht', ← nextToken_snd, ← nextToken_snd] at hview
    have hpeek : t.peek = t'.peek := hkin.ahead
    refine ⟨?_, hview.2, nextToken_consistent ht, nextToken_consistent ht'⟩
    simp only [Tokenizer.read]
    rw [nextToken_fst ht, nextToken_fst ht', hpeek]
  | characters =>
    have hview := hkin.acceptWordChar fun _ => true
    rw [← acceptWordChar_view ht, ← acceptWordChar_view ht', ← nextWordChar_snd, ← nextWordChar_snd] at hview
    refine ⟨?_, hview.2, nextWordChar_consistent ht, nextWordChar_consistent ht'⟩
    simp only [Tokenizer.read]
    rw [nextWordChar_fst ht, nextWordChar_fst ht', hkin.wordRead]

theorem Akin.readings {t t' : Tokenizer} (h : Akin t t') (heads : List Head) :
    t.readings heads = t'.readings heads := by
  induction heads generalizing t t' with
  | nil => rfl
  | cons head heads ih =>
    obtain ⟨hread, hrest⟩ := h.read head
    rw [Tokenizer.readings, Tokenizer.readings, hread, ih hrest]

namespace Tokenizer

theorem sealed_akin {t : Tokenizer} (ht : t.Consistent) : Akin t.sealed t := by
  exact ⟨View.Kin.refl _, sealed_consistent ht, ht⟩

theorem held_akin {t : Tokenizer} (ht : t.Consistent) (hs : t.stage ≠ .atEnd) {token : Token}
    {cursor : Cursor} (hp : t.peek = (.ok token, cursor)) : Akin (t.held token cursor) t := by
  refine ⟨?_, held_consistent (peek_readBefore ht hp), ht⟩
  rw [view_held hp]
  exact ⟨rfl, rfl, iff_of_false (by simp [View.dropped]) hs⟩

theorem pushBackWordChar_akin {t t' : Tokenizer} (ht : t.Consistent) {read : WordRead}
    (h : t.nextWordChar = (.ok read, t')) :
    ∃ undone, t'.pushBackWordChar = (.ok (), undone) ∧ Akin undone t := by
  have outside (hs : t.stage = .idle ∨ t.stage = .past) :
      ∃ undone, t'.pushBackWordChar = (.ok (), undone) ∧ Akin undone t := by
    have hend : t.stage ≠ .atEnd := by
      intro hend
      simp [hend] at hs
    rw [nextWordChar_of_outside ht hs] at h
    split at h
    . simp at h
    . next token cursor hp =>
      refine ⟨t.held token cursor, ?_, held_akin ht hend hp⟩
      split at h
      . next hk =>
        obtain ⟨c, cs, htext⟩ := exists_cons_of_readBefore (peek_readBefore ht hp) hk
        rw [activate_took t htext] at h
        rw [← (Prod.mk.inj h).2, pushBackWordChar_entered]
      . rw [← (Prod.mk.inj h).2, pushBackWordChar_refused]
  cases hs : t.stage with
  | idle => exact outside (Or.inl hs)
  | past => exact outside (Or.inr hs)
  | inside =>
    obtain ⟨word, hw, he⟩ := exists_word_of_inside hs
    obtain ⟨c, cs, _, hnext⟩ := nextWordChar_of_inside ht hw he
    rw [hnext] at h
    refine ⟨t.sealed, ?_, sealed_akin ht⟩
    rw [← (Prod.mk.inj h).2, pushBackWordChar_advanced hw]
  | atEnd =>
    obtain ⟨word, hw, he, hn⟩ := exists_word_of_atEnd hs
    rw [nextWordChar_of_atEnd hw he hn] at h
    refine ⟨t.sealed, ?_, sealed_akin ht⟩
    rw [← (Prod.mk.inj h).2, pushBackWordChar_ended hw hn]

theorem pushBackWordChar_readings {t t' : Tokenizer} (ht : t.Reachable) {found : WordRead}
    (h : t.nextWordChar = (.ok found, t')) :
    ∃ undone, t'.pushBackWordChar = (.ok (), undone) ∧
      ∀ heads, undone.readings heads = t.readings heads := by
  obtain ⟨undone, hundone, hakin⟩ := pushBackWordChar_akin ht.consistent h
  exact ⟨undone, hundone, hakin.readings⟩

def betweenWords : Tokenizer :=
  (Tokenizer.ofSource {} (Source.ofText "a bc")).nextWordChar.2.nextWordChar.2

theorem pushBackWordChar_readings_betweenWords :
    betweenWords.stage = .past ∧ betweenWords.nextWordChar.1 = .ok (.char 'b') ∧
    ∃ undone, betweenWords.nextWordChar.2.pushBackWordChar = (.ok (), undone) ∧
      ∀ heads, undone.readings heads = betweenWords.readings heads := by
  have hnext : betweenWords.nextWordChar = (.ok (.char 'b'), betweenWords.nextWordChar.2) := by
    decide +kernel
  refine ⟨by decide +kernel, by decide +kernel, ?_⟩
  exact pushBackWordChar_readings (.nextWordChar (.nextWordChar (.start _ _))) hnext

end Tokenizer

end TokenGrammar
