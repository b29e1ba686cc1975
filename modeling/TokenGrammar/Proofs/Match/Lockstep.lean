import TokenGrammar.Proofs.Match.Forward

/-!
Two runs of a match side by side. If the leaves give the same verdicts along two related token streams,
and leave related streams behind, then so do all rules, within any bounds, unless the first run is cut
short (`Arena.matchWithin_simulates`). The relations are equality of what the leaves see, and equality
of the streams themselves where only the bounds differ.
-/

namespace TokenGrammar

namespace Tokenizer

-- A bound on the passes of a repetition: a pass that changes the mark lowers it.
def passRank (t : Tokenizer) : Nat :=
  t.left + if t.stage = .idle then 0 else 1

theorem Forward.passRank_le {t t' : Tokenizer} (h : t.Forward t') : t'.passRank ≤ t.passRank := by
  unfold passRank
  rcases h with h | h
  . rw [h.left]
    by_cases hidle : t.stage = .idle
    . simp [h.idle hidle]
    . simp only [hidle, ↓reduceIte]
      split <;> omega
  . have := h.left
    split <;> split <;> omega

theorem Forward.passRank_lt {t t' : Tokenizer} (ht : t.Consistent) (h : t.Forward t')
    (hm : t'.mark ≠ t.mark) : t'.passRank < t.passRank := by
  unfold passRank
  rcases h with h | h
  . rw [Ne, h.mark_eq_iff ht] at hm
    rw [h.left]
    by_cases hidle : t.stage = .idle
    . simp [hidle, h.idle hidle] at hm
    . simp only [hidle, iff_false, Decidable.not_not] at hm
      simp [hidle, hm]
  . have := h.left
    split <;> split <;> omega

structure Fits (passes : Nat) (t : Tokenizer) : Prop where
  consistent : t.Consistent
  rank : t.passRank < passes

theorem Fits.of_leads {passes : Nat} {t : Tokenizer} (h : t.Fits passes) {a : Attempt} (ha : t.Leads a)
    {verdict : Bool} (hv : a.1 = .ok verdict) : a.2.Fits passes := by
  have := (ha.forward verdict hv).passRank_le
  have := h.rank
  exact ⟨ha.consistent, by omega⟩

end Tokenizer

def Endless (a : Attempt) : Prop :=
  ∃ rule, a.1 = .error (.endless rule)

/-- The same result; `R` relates what verdicts leave behind, and `Q` what errors leave behind. -/
structure Same (R Q : Tokenizer → Tokenizer → Prop) (a b : Attempt) : Prop where
  result : a.1 = b.1
  verdict : ∀ v, a.1 = .ok v → R a.2 b.2
  error : ∀ e, a.1 = .error e → Q a.2 b.2

def Simulates (R Q : Tokenizer → Tokenizer → Prop) (a b : Attempt) : Prop :=
  Endless a ∨ Same R Q a b

inductive Rule.TokenTest (caseSensitive : Bool) : (Token → Bool) → Prop where
  | literal (word : String) : TokenTest caseSensitive (literalAccepts word caseSensitive)
  | kind (kind : TokenKind) : TokenTest caseSensitive fun token => token.kind = kind

structure Lockstep (R Q : Tokenizer → Tokenizer → Prop) : Prop where
  consistent : ∀ {t t' : Tokenizer}, R t t' → t.Consistent ∧ t'.Consistent
  config : ∀ {t t' : Tokenizer}, R t t' → t.config = t'.config
  halt : ∀ {t t' : Tokenizer}, R t t' → Q t t'
  token : ∀ {t t' : Tokenizer} {test : Token → Bool}, Rule.TokenTest t.config.caseSensitive test →
    R t t' → Same R Q (t.acceptToken test) (t'.acceptToken test)
  char : ∀ {t t' : Tokenizer} (charClass : CharClass), R t t' →
    Same R Q (t.acceptWordChar (charClass.accepts t.config.caseSensitive))
      (t'.acceptWordChar (charClass.accepts t.config.caseSensitive))

def Synced (R : Tokenizer → Tokenizer → Prop) : Prop :=
  ∀ t t' u u' : Tokenizer, R t t' → R u u' → t.Forward u → t'.Forward u' →
    (u.mark = t.mark ↔ u'.mark = t'.mark)

section

variable {R Q : Tokenizer → Tokenizer → Prop}

theorem Same.ok {t t' : Tokenizer} (h : R t t') (v : Bool) : Same R Q (.ok v, t) (.ok v, t') := by
  exact ⟨rfl, fun _ _ => h, by simp⟩

theorem Same.fail {t t' : Tokenizer} (h : Q t t') (e : MatchError) :
    Same R Q (.error e, t) (.error e, t') := by
  exact ⟨rfl, by simp, fun _ _ => h⟩

theorem Simulates.endless {a b : Attempt} (h : Simulates R Q a b) (hb : Endless b) : Endless a := by
  rcases h with hend | hsame
  . exact hend
  . obtain ⟨rule, hrule⟩ := hb
    exact ⟨rule, by rw [hsame.result, hrule]⟩

theorem Simulates.cases {a b : Attempt} (h : Simulates R Q a b) :
    Endless a ∨
    (∃ e t t', a = (.error e, t) ∧ b = (.error e, t') ∧ Q t t') ∨
    ∃ v t t', a = (.ok v, t) ∧ b = (.ok v, t') ∧ R t t' := by
  rcases h with hend | hsame
  . exact Or.inl hend
  . obtain ⟨result, t⟩ := a
    obtain ⟨result', t'⟩ := b
    have heq : result = result' := hsame.result
    cases result with
    | error e => exact Or.inr (Or.inl ⟨e, t, t', rfl, by rw [← heq], hsame.error e rfl⟩)
    | ok v => exact Or.inr (Or.inr ⟨v, t, t', rfl, by rw [← heq], hsame.verdict v rfl⟩)

namespace Arena

variable {enter enter' : RuleId → Tokenizer → Attempt}

theorem matchAll_simulates {rules : List RuleId}
    (h : ∀ id ∈ rules, ∀ t t' : Tokenizer, R t t' → Simulates R Q (enter id t) (enter' id t'))
    {t t' : Tokenizer} (hr : R t t') :
    Simulates R Q (matchAll enter rules t) (matchAll enter' rules t') := by
  induction rules generalizing t t' with
  | nil => exact Or.inr (Same.ok hr true)
  | cons rule rules ih =>
    rw [List.forall_mem_cons] at h
    unfold matchAll
    rcases (h.1 t t' hr).cases with ⟨cut, hcut⟩ | ⟨e, u, u', ha, hb, hq⟩ | ⟨v, u, u', ha, hb, hr'⟩
    . left
      split
      . next heq => simp [heq] at hcut
      . exact ⟨cut, hcut⟩
    . rw [ha, hb]
      exact Or.inr (Same.fail hq e)
    . rw [ha, hb]
      cases v with
      | false => exact Or.inr (Same.ok hr' false)
      | true => exact ih h.2 hr'

theorem matchAny_simulates {rules : List RuleId}
    (h : ∀ id ∈ rules, ∀ t t' : Tokenizer, R t t' → Simulates R Q (enter id t) (enter' id t'))
    {t t' : Tokenizer} (hr : R t t') :
    Simulates R Q (matchAny enter rules t) (matchAny enter' rules t') := by
  induction rules generalizing t t' with
  | nil => exact Or.inr (Same.ok hr false)
  | cons rule rules ih =>
    rw [List.forall_mem_cons] at h
    unfold matchAny
    rcases (h.1 t t' hr).cases with ⟨cut, hcut⟩ | ⟨e, u, u', ha, hb, hq⟩ | ⟨v, u, u', ha, hb, hr'⟩
    . left
      split
      . next heq => simp [heq] at hcut
      . exact ⟨cut, hcut⟩
    . rw [ha, hb]
      exact Or.inr (Same.fail hq e)
    . rw [ha, hb]
      cases v with
      | true => exact Or.inr (Same.ok hr' true)
      | false => exact ih h.2 hr'

theorem matchRepetition_pass {body body' : Tokenizer → Attempt} {rule : RuleId} {min : Nat}
    {max : Option Nat} {passes passes' count : Nat} {t t' : Tokenizer} (hr : R t t')
    (h : Simulates R Q (body t) (body' t'))
    (hnext : ∀ u u' : Tokenizer, body t = (.ok true, u) → body' t' = (.ok true, u') → R u u' →
      Simulates R Q
        (if u.mark = t.mark then (.ok true, u)
          else matchRepetition rule min max body passes (count + 1) u)
        (if u'.mark = t'.mark then (.ok true, u')
          else matchRepetition rule min max body' passes' (count + 1) u')) :
    Simulates R Q (matchRepetition rule min max body (passes + 1) count t)
      (matchRepetition rule min max body' (passes' + 1) count t') := by
  unfold matchRepetition
  split
  . exact Or.inr (Same.ok hr _)
  . rcases h.cases with ⟨cut, hcut⟩ | ⟨e, u, u', ha, hb, hq⟩ | ⟨v, u, u', ha, hb, hr'⟩
    . left
      refine ⟨cut, ?_⟩
      split
      . next heq => simpa [heq] using hcut
      . next heq => simp [heq] at hcut
      . next heq => simp [heq] at hcut
    . rw [ha, hb]
      exact Or.inr (Same.fail hq e)
    . rw [ha, hb]
      cases v with
      | false => exact Or.inr (Same.ok hr' _)
      | true => exact hnext u u' ha hb hr'

-- Both loops have the same number of passes left, or both have more than they can use.
theorem matchRepetition_simulates {body body' : Tokenizer → Attempt} (hl : Lockstep R Q)
    (hs : Synced R) (hlead : ∀ t : Tokenizer, t.Consistent → t.Leads (body t))
    (hlead' : ∀ t : Tokenizer, t.Consistent → t.Leads (body' t))
    (h : ∀ t t' : Tokenizer, R t t' → Simulates R Q (body t) (body' t')) (rule : RuleId) (min : Nat)
    (max : Option Nat) {passes passes' : Nat} (count : Nat) {t t' : Tokenizer} (hr : R t t')
    (hp : passes = passes' ∨ t.passRank < passes ∧ t'.passRank < passes') :
    Simulates R Q (matchRepetition rule min max body passes count t)
      (matchRepetition rule min max body' passes' count t') := by
  induction passes generalizing passes' count t t' with
  | zero => exact Or.inl ⟨rule, rfl⟩
  | succ passes ih =>
    cases passes' with
    | zero => omega
    | succ passes' =>
      obtain ⟨ht, ht'⟩ := hl.consistent hr
      apply matchRepetition_pass hr (h t t' hr)
      intro u u' ha hb hr'
      have hf : t.Forward u := (ha ▸ hlead t ht).forward true rfl
      have hf' : t'.Forward u' := (hb ▸ hlead' t' ht').forward true rfl
      have hmark := hs t t' u u' hr hr' hf hf'
      by_cases hm : u.mark = t.mark
      . rw [if_pos hm, if_pos (hmark.1 hm)]
        exact Or.inr (Same.ok hr' _)
      . rw [if_neg hm, if_neg fun hm' => hm (hmark.2 hm')]
        apply ih (count + 1) hr'
        have hlt := hf.passRank_lt ht hm
        have hlt' := hf'.passRank_lt ht' fun hm' => hm (hmark.2 hm')
        omega

theorem matchWithin_step {arena : Arena} {passes passes' depth depth' : Nat} (hl : Lockstep R Q)
    (hrep : ∀ id min max body, arena.get? id = some (.repetition min max body) →
      ∀ t t' : Tokenizer, R t t' →
        Simulates R Q
          (matchRepetition id min max (matchAll (arena.matchWithin passes depth) body) passes 0 t)
          (matchRepetition id min max (matchAll (arena.matchWithin passes' depth') body) passes' 0 t'))
    (h : ∀ (id : RuleId) (t t' : Tokenizer), R t t' →
      Simulates R Q (arena.matchWithin passes depth id t) (arena.matchWithin passes' depth' id t'))
    (id : RuleId) {t t' : Tokenizer} (hr : R t t') :
    Simulates R Q (arena.matchWithin passes (depth + 1) id t)
      (arena.matchWithin passes' (depth' + 1) id t') := by
  unfold matchWithin
  rw [← hl.config hr]
  split
  . exact Or.inr (Same.fail (hl.halt hr) _)
  . exact matchAll_simulates (fun id _ => h id) hr
  . exact matchAny_simulates (fun id _ => h id) hr
  . next hrule => exact hrep id _ _ _ hrule t t' hr
  . exact Or.inr (hl.token (.literal _) hr)
  . exact Or.inr (hl.char _ hr)
  . exact Or.inr (hl.token (.kind _) hr)
  . exact Or.inr (Same.fail (hl.halt hr) _)
  . exact h _ t t' hr

theorem matchWithin_simulates {arena : Arena} {passes passes' depth depth' : Nat}
    (hl : Lockstep R Q) (hs : Synced R)
    (hp : ∀ t t' : Tokenizer, R t t' →
      passes = passes' ∨ t.passRank < passes ∧ t'.passRank < passes')
    (h : ∀ (id : RuleId) (t t' : Tokenizer), R t t' →
      Simulates R Q (arena.matchWithin passes depth id t) (arena.matchWithin passes' depth' id t'))
    (id : RuleId) {t t' : Tokenizer} (hr : R t t') :
    Simulates R Q (arena.matchWithin passes (depth + 1) id t)
      (arena.matchWithin passes' (depth' + 1) id t') := by
  apply matchWithin_step hl _ h id hr
  intro id min max body _ t t' hr
  apply matchRepetition_simulates hl hs _ _ _ id min max 0 hr (hp t t' hr)
  . intro t ht
    exact matchAll_leads (arena.matchWithin_leads passes depth) body ht
  . intro t ht
    exact matchAll_leads (arena.matchWithin_leads passes' depth') body ht
  . intro t t' hr
    exact matchAll_simulates (fun id _ => h id) hr

theorem matchWithin_lockstep {arena : Arena} (hl : Lockstep R Q) (hs : Synced R) (passes depth : Nat)
    (id : RuleId) {t t' : Tokenizer} (hr : R t t') :
    Simulates R Q (arena.matchWithin passes depth id t) (arena.matchWithin passes depth id t') := by
  induction depth generalizing id t t' with
  | zero => exact Or.inl ⟨id, rfl⟩
  | succ depth ih =>
    apply matchWithin_simulates hl hs _ _ id hr
    . intro _ _ _
      exact Or.inl rfl
    . intro id t t' hr
      exact ih id hr

end Arena

end

/-! The same token stream. -/

def At (S : Tokenizer → Prop) (t t' : Tokenizer) : Prop :=
  t = t' ∧ t.Consistent ∧ S t

theorem at_synced (S : Tokenizer → Prop) : Synced (At S) := by
  intro t t' u u' ht hu _ _
  rw [ht.1, hu.1]

theorem same_at {S : Tokenizer → Prop} (hS : ∀ t u : Tokenizer, S t → t.Forward u → S u)
    {t : Tokenizer} (ht : S t) {a : Attempt} (ha : t.Leads a) : Same (At S) Eq a a := by
  constructor
  . rfl
  . intro v hv
    exact ⟨rfl, ha.consistent, hS t a.2 ht (ha.forward v hv)⟩
  . intro _ _
    rfl

theorem at_lockstep {S : Tokenizer → Prop} (hS : ∀ t u : Tokenizer, S t → t.Forward u → S u) :
    Lockstep (At S) Eq := by
  constructor
  . rintro t t' ⟨rfl, ht, _⟩
    exact ⟨ht, ht⟩
  . rintro t t' ⟨rfl, _⟩
    rfl
  . rintro t t' ⟨rfl, _⟩
    rfl
  . rintro t t' test _ ⟨rfl, ht, hst⟩
    exact same_at hS hst (Tokenizer.acceptToken_leads ht test)
  . rintro t t' charClass ⟨rfl, ht, hst⟩
    exact same_at hS hst (Tokenizer.acceptWordChar_leads ht _)

theorem Simulates.eq {S : Tokenizer → Prop} {a b : Attempt} (h : Simulates (At S) Eq a b) :
    Endless a ∨ a = b := by
  rcases h.cases with hend | ⟨e, t, t', ha, hb, ht⟩ | ⟨v, t, t', ha, hb, ht⟩
  . exact Or.inl hend
  . right
    rw [ha, hb, ht]
  . right
    rw [ha, hb, ht.1]

/-! Token streams of which the leaves see the same. -/

def Alike (t t' : Tokenizer) : Prop :=
  t.view = t'.view ∧ t.Consistent ∧ t'.Consistent

theorem alike_synced : Synced Alike := by
  intro t t' u u' ht hu hf hf'
  have hstage : ∀ {t t' : Tokenizer}, Alike t t' → t.stage = t'.stage := fun h => congrArg View.stage h.1
  have hleft : ∀ {t t' : Tokenizer}, Alike t t' → t.left = t'.left :=
    fun h => congrArg (fun v : View => Tokenizer.workAhead v.ahead) h.1
  rw [hf.mark_eq_iff ht.2.1, hf'.mark_eq_iff ht.2.2, hstage ht, hstage hu, hleft ht, hleft hu]

theorem same_alike {t t' : Tokenizer} {a b : Attempt} (ha : t.Leads a) (hb : t'.Leads b)
    (h : (a.1, a.2.view) = (b.1, b.2.view)) : Same Alike Alike a b := by
  rw [Prod.mk.injEq] at h
  have hab : Alike a.2 b.2 := ⟨h.2, ha.consistent, hb.consistent⟩
  exact ⟨h.1, fun _ _ => hab, fun _ _ => hab⟩

theorem alike_lockstep : Lockstep Alike Alike := by
  constructor
  . intro t t' h
    exact h.2
  . intro t t' h
    exact congrArg View.config h.1
  . intro t t' h
    exact h
  . intro t t' test _ h
    apply same_alike (Tokenizer.acceptToken_leads h.2.1 test) (Tokenizer.acceptToken_leads h.2.2 test)
    rw [Tokenizer.acceptToken_view h.2.1, Tokenizer.acceptToken_view h.2.2, h.1]
  . intro t t' charClass h
    apply same_alike (Tokenizer.acceptWordChar_leads h.2.1 _) (Tokenizer.acceptWordChar_leads h.2.2 _)
    rw [Tokenizer.acceptWordChar_view h.2.1, Tokenizer.acceptWordChar_view h.2.2, h.1]

theorem Arena.matchWithin_alike (arena : Arena) (passes depth : Nat) (id : RuleId) {t t' : Tokenizer}
    (h : Alike t t') :
    Simulates Alike Alike (arena.matchWithin passes depth id t) (arena.matchWithin passes depth id t') := by
  exact matchWithin_lockstep alike_lockstep alike_synced passes depth id h

end TokenGrammar
