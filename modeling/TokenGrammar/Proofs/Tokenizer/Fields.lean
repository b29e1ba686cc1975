import TokenGrammar.Proofs.Tokenizer.Delivery

/-!
Whatever is done with a tokenizer, also with changing settings and after faults, its fields fit together
(`Tokenizer.runCalls_fields`). So what is put back inside another operation always can be put back, and
no count is ever lowered below zero.
-/

namespace TokenGrammar

namespace Tokenizer

inductive Call where
  | operation (operation : Operation)
  | configure (change : Config → Config)

def afterCall (t : Tokenizer) : Call → Tokenizer
  | .operation operation => t.perform operation
  | .configure change => t.configure (change t.config)

def runCalls (t : Tokenizer) (calls : List Call) : Tokenizer :=
  calls.foldl afterCall t

theorem Reachable.perform {t : Tokenizer} (h : t.Reachable) (operation : Operation) :
    (t.perform operation).Reachable := by
  cases operation with
  | nextToken => exact h.nextToken
  | pushBack => exact h.pushBack
  | nextWordChar => exact h.nextWordChar
  | pushBackWordChar => exact h.pushBackWordChar

theorem Reachable.runCalls {t : Tokenizer} (h : t.Reachable) (calls : List Call) :
    (t.runCalls calls).Reachable := by
  induction calls generalizing t with
  | nil => exact h
  | cons call calls ih =>
    apply ih
    cases call with
    | operation operation => exact h.perform operation
    | configure change => exact h.configure (change t.config)

def CountsBack (t : Tokenizer) : Prop :=
  ∀ t', t.pushBack = (.ok (), t') →
    ∃ token, t.last = some token ∧ t.tokens = t'.tokens + token.delivered.length

def OutsideWord (t : Tokenizer) : Prop :=
  ∀ word, t.word = some word → word.ended = true

def leaveWord (t : Tokenizer) : Tokenizer :=
  { t with word := none }

namespace Consistent

variable {t : Tokenizer}

theorem countsBack (h : t.Consistent) : t.CountsBack := by
  intro t' hb
  obtain ⟨hr, token, hl, _⟩ := pushBack_ok hb
  refine ⟨token, hl, ?_⟩
  have ht' : t' = t.pushBack.2 := by rw [hb]
  cases hend : token.isEndOfStream with
  | true => simp [ht', pushBack, hr, hl, hend, Token.delivered]
  | false =>
    have := h.tokens token hl hend hr
    simp only [ht', pushBack, hr, hl, hend, Token.delivered, Bool.false_eq_true, ↓reduceIte,
      List.length_cons, List.length_nil]
    omega

theorem exists_pushBack {token : Token} (hr : t.replay = false) (hl : t.last = some token) :
    ∃ t', t.pushBack = (.ok (), t') := by
  simp [pushBack, hr, hl]

theorem stage_of_outsideWord (h : t.Consistent) (hout : t.OutsideWord) :
    t.stage = .idle ∨ t.stage = .past := by
  cases hw : t.word with
  | none => exact Or.inl (stage_of_none hw)
  | some word =>
    have hended := hout word hw
    obtain ⟨_, _, hreads⟩ := h.word word hw
    have he : word.isExhausted = true := by
      simp [ActiveWord.isExhausted, hreads.ended hended]
    rw [stage_of_exhausted hw he, if_pos hended]
    exact Or.inr rfl

theorem leaveWord_nextToken (h : t.Consistent) (hout : t.OutsideWord) :
    t.leaveWord.nextToken = t.nextToken := by
  have hpeek : t.leaveWord.peek = t.peek := by
    cases hw : t.word with
    | none =>
      unfold peek
      rw [hw]
      rfl
    | some word =>
      have hr := h.replay_eq_false hw
      obtain ⟨_, _, hreads⟩ := h.word word hw
      have he : word.isExhausted = true := by
        simp [ActiveWord.isExhausted, hreads.ended (hout word hw)]
      rw [peek_of_exhausted h hw he]
      simp [peek, leaveWord, hr]
  rw [nextToken_eq (t := t.leaveWord) fun _ => rfl, nextToken_eq fun hr => (h.replay hr).1, hpeek]
  rfl

theorem nextWordChar_putsBack (h : t.Consistent) (hout : t.OutsideWord) {token : Token} {u : Tokenizer}
    (hnext : t.leaveWord.nextToken = (.ok token, u)) (hk : token.kind ≠ .word) :
    u.CountsBack ∧ ∃ u', u.pushBack = (.ok (), u') ∧
      t.nextWordChar = (.ok .notAWord, { u' with wordStep := some .notAWord }) := by
  rw [h.leaveWord_nextToken hout, nextToken_eq fun hr => (h.replay hr).1] at hnext
  have hchar := nextWordChar_of_outside h (h.stage_of_outsideWord hout)
  split at hnext
  . next cursor hp =>
    simp only [Prod.mk.injEq, Except.ok.injEq] at hnext
    obtain ⟨rfl, rfl⟩ := hnext
    refine ⟨(took_consistent (peek_readBefore h hp)).countsBack, _, pushBack_took t _ cursor, ?_⟩
    rw [hchar, hp]
    dsimp only
    rw [if_neg hk]
    rfl
  . simp at hnext

theorem pushBackWordChar_putsBack (h : t.Consistent) (hs : t.wordStep = some .started) :
    t.sealed.CountsBack ∧ ∃ u, t.sealed.pushBack = (.ok (), u) ∧ t.pushBackWordChar = (.ok (), u) := by
  have hstep := h.step
  simp only [StepFits, hs] at hstep
  obtain ⟨word, hw, _⟩ := hstep
  obtain ⟨token, hl, _⟩ := h.word word hw
  obtain ⟨u, hu⟩ := exists_pushBack (t := t.sealed) (h.replay_eq_false hw) hl
  refine ⟨(sealed_consistent h).countsBack, u, hu, ?_⟩
  simp only [pushBackWordChar, hs]
  exact hu

theorem pushBackWordChar_lowers (h : t.Consistent) (hs : t.wordStep = some .advanced) :
    ∃ word word', t.word = some word ∧ t.pushBackWordChar.2.word = some word' ∧
      word.pos = word'.pos + 1 := by
  have hstep := h.step
  simp only [StepFits, hs] at hstep
  obtain ⟨word, hw, hpos, _⟩ := hstep
  refine ⟨word, { word with pos := word.pos - 1 }, hw, ?_, ?_⟩
  . simp [pushBackWordChar, hs, hw]
  . dsimp only
    omega

theorem nextToken_replays (h : t.Consistent) (hr : t.replay = true) :
    ∃ token, t.last = some token ∧ t.nextToken.1 = .ok token := by
  obtain ⟨_, token, hl⟩ := h.replay hr
  refine ⟨token, hl, ?_⟩
  simp [nextToken, deliver, hr, hl]

end Consistent

/--
How the fields depend on each other after any calls. A token that has been put back leaves no word
active, an active word is the last token, what can be taken back says where the head for characters
stands, and a token that can be put back has been counted. So a token that is put back comes again, and
whatever an operation puts back on its own it can put back.
-/
theorem runCalls_fields (config : Config) (source : Source) (calls : List Call) :
    let t := (ofSource config source).runCalls calls
    (t.replay = true → (∃ token, t.last = some token) ∧ t.word = none) ∧
    (∀ word, t.word = some word →
      t.replay = false ∧ ∃ token, t.last = some token ∧ word.Reads token) ∧
    (t.wordStep = some .advanced → ∃ word, t.word = some word ∧ 2 ≤ word.pos) ∧
    (t.wordStep = some .started → ∃ word, t.word = some word ∧ word.pos = 1) ∧
    (t.wordStep = some .atEnd → ∃ word, t.word = some word ∧ word.ended = true) ∧
    (t.wordStep = some .notAWord → t.replay = true) ∧
    (∀ token, t.last = some token → token.isEndOfStream = false → t.replay = false → 1 ≤ t.tokens) ∧
    -- What follows for the operations.
    (t.wordStep = some .advanced →
      ∃ word word', t.word = some word ∧ t.pushBackWordChar.2.word = some word' ∧
        word.pos = word'.pos + 1) ∧
    t.CountsBack ∧
    (t.replay = true → ∃ token, t.last = some token ∧ t.nextToken.1 = .ok token) ∧
    (∀ token u, t.OutsideWord → t.leaveWord.nextToken = (.ok token, u) → token.kind ≠ .word →
      u.CountsBack ∧ ∃ u', u.pushBack = (.ok (), u') ∧
        t.nextWordChar = (.ok .notAWord, { u' with wordStep := some .notAWord })) ∧
    (t.wordStep = some .started →
      t.sealed.CountsBack ∧ ∃ u, t.sealed.pushBack = (.ok (), u) ∧
        t.pushBackWordChar = (.ok (), u)) := by
  intro t
  have h : t.Consistent := ((Reachable.start config source).runCalls calls).consistent
  have hstep := h.step
  unfold StepFits at hstep
  refine ⟨fun hr => (h.replay hr).symm, fun word hw => ⟨h.replay_eq_false hw, h.word word hw⟩, ?_, ?_, ?_,
    ?_, h.tokens, h.pushBackWordChar_lowers, h.countsBack, h.nextToken_replays, ?_,
    h.pushBackWordChar_putsBack⟩
  . intro hs
    rw [hs] at hstep
    obtain ⟨word, hw, hpos, _⟩ := hstep
    exact ⟨word, hw, hpos⟩
  . intro hs
    rw [hs] at hstep
    obtain ⟨word, hw, hpos, _⟩ := hstep
    exact ⟨word, hw, hpos⟩
  . intro hs
    rw [hs] at hstep
    exact hstep
  . intro hs
    rw [hs] at hstep
    exact hstep
  . intro token u hout hnext hk
    exact h.nextWordChar_putsBack hout hnext hk

end Tokenizer

end TokenGrammar
