import TokenGrammar.Proofs.Match.Forward

/-!
What a verdict says of the rules that a rule is made up of. Each lemma takes a match that came to a
verdict one step apart; the children are matched within one level of depth less.
-/

namespace TokenGrammar

namespace Arena

theorem matchAll_cons_ok {enter : RuleId → Tokenizer → Attempt} {rule : RuleId} {rules : List RuleId}
    {t t' : Tokenizer} {b : Bool} (h : matchAll enter (rule :: rules) t = (.ok b, t')) :
    b = false ∧ enter rule t = (.ok false, t') ∨
      ∃ u, enter rule t = (.ok true, u) ∧ matchAll enter rules u = (.ok b, t') := by
  unfold matchAll at h
  split at h
  . next u heq => exact Or.inr ⟨u, heq, h⟩
  . next hne =>
    cases b with
    | false => exact Or.inl ⟨rfl, h⟩
    | true => exact absurd h (hne t')

theorem matchAll_singleton (enter : RuleId → Tokenizer → Attempt) (rule : RuleId) (t : Tokenizer) :
    matchAll enter [rule] t = enter rule t := by
  cases henter : enter rule t with
  | mk result u =>
    cases result with
    | error error => simp [matchAll, henter]
    | ok verdict => cases verdict <;> simp [matchAll, henter]

theorem matchAll_singleton_ok {enter : RuleId → Tokenizer → Attempt} {rule : RuleId} {t t' : Tokenizer}
    {b : Bool} (h : matchAll enter [rule] t = (.ok b, t')) : enter rule t = (.ok b, t') := by
  rwa [matchAll_singleton] at h

theorem matchAny_cons_ok {enter : RuleId → Tokenizer → Attempt} {rule : RuleId} {rules : List RuleId}
    {t t' : Tokenizer} {b : Bool} (h : matchAny enter (rule :: rules) t = (.ok b, t')) :
    b = true ∧ enter rule t = (.ok true, t') ∨
      ∃ u, enter rule t = (.ok false, u) ∧ matchAny enter rules u = (.ok b, t') := by
  unfold matchAny at h
  split at h
  . next u heq => exact Or.inr ⟨u, heq, h⟩
  . next hne =>
    cases b with
    | true => exact Or.inl ⟨rfl, h⟩
    | false => exact absurd h (hne t')

theorem matchAny_singleton_ok {enter : RuleId → Tokenizer → Attempt} {rule : RuleId} {t t' : Tokenizer}
    {b : Bool} (h : matchAny enter [rule] t = (.ok b, t')) : enter rule t = (.ok b, t') := by
  rcases matchAny_cons_ok h with ⟨rfl, hfirst⟩ | ⟨u, hfirst, hrest⟩
  . exact hfirst
  . simp only [matchAny, Prod.mk.injEq, Except.ok.injEq] at hrest
    rw [hfirst, hrest.1, hrest.2]

theorem matchRepetition_star_ok {body : Tokenizer → Attempt} {I : Tokenizer → Prop}
    {P : Tokenizer → Tokenizer → Prop}
    (hstop : ∀ t t' : Tokenizer, I t → body t = (.ok false, t') → P t t')
    (hstep : ∀ t u : Tokenizer, I t → body t = (.ok true, u) →
      u.mark ≠ t.mark ∧ I u ∧ ∀ t', P u t' → P t t')
    {rule : RuleId} {passes count : Nat} {t t' : Tokenizer} {b : Bool} (ht : I t)
    (h : matchRepetition rule 0 none body passes count t = (.ok b, t')) : b = true ∧ P t t' := by
  induction passes generalizing count t with
  | zero => simp [matchRepetition] at h
  | succ passes ih =>
    simp only [matchRepetition, Option.any_none, Bool.false_eq_true, ↓reduceIte, Nat.zero_le,
      decide_true] at h
    split at h
    . simp at h
    . next heq =>
      simp only [Prod.mk.injEq, Except.ok.injEq] at h
      obtain ⟨rfl, rfl⟩ := h
      exact ⟨rfl, hstop t _ ht heq⟩
    . next u heq =>
      obtain ⟨hmark, hu, hrest⟩ := hstep t u ht heq
      rw [if_neg hmark] at h
      obtain ⟨hb, hP⟩ := ih hu h
      exact ⟨hb, hrest t' hP⟩

section

variable {arena : Arena} {passes depth : Nat} {id : RuleId} {t t' : Tokenizer} {b : Bool}

theorem matchWithin_sequence_ok {rules : List RuleId} (hid : arena.get? id = some (.sequence rules))
    (h : arena.matchWithin passes depth id t = (.ok b, t')) :
    ∃ d, depth = d + 1 ∧ matchAll (arena.matchWithin passes d) rules t = (.ok b, t') := by
  cases depth with
  | zero => simp [matchWithin] at h
  | succ d => exact ⟨d, rfl, by simpa only [matchWithin, hid] using h⟩

theorem matchWithin_choice_ok {rules : List RuleId} (hid : arena.get? id = some (.choice rules))
    (h : arena.matchWithin passes depth id t = (.ok b, t')) :
    ∃ d, depth = d + 1 ∧ matchAny (arena.matchWithin passes d) rules t = (.ok b, t') := by
  cases depth with
  | zero => simp [matchWithin] at h
  | succ d => exact ⟨d, rfl, by simpa only [matchWithin, hid] using h⟩

theorem matchWithin_repetition_ok {min : Nat} {max : Option Nat} {body : List RuleId}
    (hid : arena.get? id = some (.repetition min max body))
    (h : arena.matchWithin passes depth id t = (.ok b, t')) :
    ∃ d, depth = d + 1 ∧
      matchRepetition id min max (matchAll (arena.matchWithin passes d) body) passes 0 t =
        (.ok b, t') := by
  cases depth with
  | zero => simp [matchWithin] at h
  | succ d => exact ⟨d, rfl, by simpa only [matchWithin, hid] using h⟩

theorem matchWithin_reference_ok {name : String} {target : RuleId}
    (hid : arena.get? id = some (.reference name (some target)))
    (h : arena.matchWithin passes depth id t = (.ok b, t')) :
    ∃ d, depth = d + 1 ∧ arena.matchWithin passes d target t = (.ok b, t') := by
  cases depth with
  | zero => simp [matchWithin] at h
  | succ d => exact ⟨d, rfl, by simpa only [matchWithin, hid] using h⟩

theorem matchWithin_literal_ok {word : String} (hid : arena.get? id = some (.literal word))
    (h : arena.matchWithin passes depth id t = (.ok b, t')) :
    t.acceptToken (Rule.literalAccepts word t.config.caseSensitive) = (.ok b, t') := by
  cases depth with
  | zero => simp [matchWithin] at h
  | succ d => simpa only [matchWithin, hid] using h

theorem matchWithin_token_ok {kind : TokenKind} (hid : arena.get? id = some (.token kind))
    (h : arena.matchWithin passes depth id t = (.ok b, t')) :
    t.acceptToken (fun token => token.kind = kind) = (.ok b, t') := by
  cases depth with
  | zero => simp [matchWithin] at h
  | succ d => simpa only [matchWithin, hid] using h

theorem matchWithin_charClass_ok {test : CharClass} (hid : arena.get? id = some (.charClass test))
    (h : arena.matchWithin passes depth id t = (.ok b, t')) :
    t.acceptWordChar (test.accepts t.config.caseSensitive) = (.ok b, t') := by
  cases depth with
  | zero => simp [matchWithin] at h
  | succ d => simpa only [matchWithin, hid] using h

end

end Arena

end TokenGrammar
