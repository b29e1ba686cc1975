import TokenGrammar.Proofs.Match.Moves
import TokenGrammar.Proofs.Rule.Nullable
import TokenGrammar.Proofs.Tokenizer.Progress

/-!
Matching only moves forward (`Arena.matchWithin_leads`), and a rule that is not nullable takes something
off the tokens to come whenever it matches (`Arena.matchWithin_gained`).
-/

namespace TokenGrammar

namespace Tokenizer

theorem leads_iff_moves {t : Tokenizer} {attempt : Attempt} :
    t.Leads attempt ↔ t.Moves Forward attempt := by
  constructor
  . intro h
    exact ⟨h.consistent, h.forward⟩
  . intro h
    exact ⟨h.consistent, h.moved⟩

theorem forward_keptByLeaves : KeptByLeaves Forward := by
  constructor
  . exact Forward.refl
  . exact Forward.trans
  . intro t test ht
    exact leads_iff_moves.1 (acceptToken_leads ht test)
  . intro t test ht
    exact leads_iff_moves.1 (acceptWordChar_leads ht test)

end Tokenizer

namespace Arena

open Tokenizer

def EntersForward (enter : RuleId → Tokenizer → Attempt) : Prop :=
  ∀ (id : RuleId) (t : Tokenizer), t.Consistent → t.Leads (enter id t)

theorem matchAll_leads {enter : RuleId → Tokenizer → Attempt} (he : EntersForward enter)
    (rules : List RuleId) {t : Tokenizer} (ht : t.Consistent) : t.Leads (matchAll enter rules t) := by
  simp only [EntersForward, leads_iff_moves] at he ⊢
  exact matchAll_moves forward_keptByLeaves he rules ht

theorem matchAny_leads {enter : RuleId → Tokenizer → Attempt} (he : EntersForward enter)
    (rules : List RuleId) {t : Tokenizer} (ht : t.Consistent) : t.Leads (matchAny enter rules t) := by
  simp only [EntersForward, leads_iff_moves] at he ⊢
  exact matchAny_moves forward_keptByLeaves he rules ht

theorem matchRepetition_leads {body : Tokenizer → Attempt}
    (hbody : ∀ t : Tokenizer, t.Consistent → t.Leads (body t)) (rule : RuleId) (min : Nat) (max : Option Nat)
    (passes count : Nat) {t : Tokenizer} (ht : t.Consistent) :
    t.Leads (matchRepetition rule min max body passes count t) := by
  simp only [leads_iff_moves] at hbody ⊢
  exact matchRepetition_moves forward_keptByLeaves hbody rule min max passes count ht

theorem matchWithin_leads (arena : Arena) (passes depth : Nat) :
    EntersForward (arena.matchWithin passes depth) := by
  intro id t ht
  rw [leads_iff_moves]
  exact matchWithin_moves forward_keptByLeaves arena passes depth id t ht

theorem matchRule_leads (arena : Arena) : EntersForward arena.matchRule := by
  intro id t ht
  apply matchWithin_leads
  exact ht

/-! Rules that are not nullable. -/

def EntersGaining (marked : RuleId → Bool) (enter : RuleId → Tokenizer → Attempt) : Prop :=
  ∀ (id : RuleId) (t t' : Tokenizer), marked id = false → t.Consistent → enter id t = (.ok true, t') → t.Gained t'

theorem matchAll_gained {enter : RuleId → Tokenizer → Attempt} (he : EntersForward enter)
    {marked : RuleId → Bool} (hgain : EntersGaining marked enter) {rules : List RuleId}
    {t t' : Tokenizer} (hrules : rules.all marked = false) (ht : t.Consistent)
    (h : matchAll enter rules t = (.ok true, t')) : t.Gained t' := by
  induction rules generalizing t with
  | nil => simp at hrules
  | cons rule rules ih =>
    have hrule := he rule t ht
    unfold matchAll at h
    split at h
    . next heq =>
      rw [heq] at hrule
      cases hm : marked rule with
      | true =>
        apply (hrule.forward true rfl).trans_gained
        apply ih _ hrule.consistent h
        simpa [hm] using hrules
      | false =>
        apply (hgain rule t _ hm ht heq).trans_forward
        have hrest := matchAll_leads he rules hrule.consistent
        rw [h] at hrest
        exact hrest.forward true rfl
    . next hne => exact absurd h (hne t')

theorem matchAny_gained {enter : RuleId → Tokenizer → Attempt} (he : EntersForward enter)
    {marked : RuleId → Bool} (hgain : EntersGaining marked enter) {rules : List RuleId}
    {t t' : Tokenizer} (hrules : rules.any marked = false) (ht : t.Consistent)
    (h : matchAny enter rules t = (.ok true, t')) : t.Gained t' := by
  induction rules generalizing t with
  | nil => simp [matchAny] at h
  | cons rule rules ih =>
    have hrule := he rule t ht
    rw [List.any_cons, Bool.or_eq_false_iff] at hrules
    unfold matchAny at h
    split at h
    . next heq =>
      rw [heq] at hrule
      apply (hrule.forward false rfl).trans_gained
      exact ih hrules.2 hrule.consistent h
    . exact hgain rule t t' hrules.1 ht h

-- A repetition matches only after as many passes as its minimum, or after a pass that takes nothing.
theorem matchRepetition_gained {body : Tokenizer → Attempt}
    (hbody : ∀ t : Tokenizer, t.Consistent → t.Leads (body t))
    (hgain : ∀ t t' : Tokenizer, t.Consistent → body t = (.ok true, t') → t.Gained t') {rule : RuleId} {min : Nat}
    {max : Option Nat} {passes count : Nat} {t t' : Tokenizer} (hcount : count < min)
    (ht : t.Consistent) (h : matchRepetition rule min max body passes count t = (.ok true, t')) :
    t.Gained t' := by
  induction passes generalizing count t with
  | zero => simp [matchRepetition] at h
  | succ passes ih =>
    have hpass := hbody t ht
    unfold matchRepetition at h
    split at h
    . simp only [Prod.mk.injEq, Except.ok.injEq, decide_eq_true_eq] at h
      omega
    . split at h
      . simp at h
      . simp only [Prod.mk.injEq, Except.ok.injEq, decide_eq_true_eq] at h
        omega
      . next next heq =>
        rw [heq] at hpass
        have hgained := hgain t next ht heq
        split at h
        . next hm => exact absurd hm (hgained.mark_ne ht)
        . apply hgained.trans_forward
          have hrest := matchRepetition_leads hbody rule min max passes (count + 1) hpass.consistent
          rw [h] at hrest
          exact hrest.forward true rfl

theorem matchWithin_gained (arena : Arena) (passes depth : Nat) :
    EntersGaining (fun id => arena.nullable.getD id false) (arena.matchWithin passes depth) := by
  induction depth with
  | zero =>
    intro id t t' _ _ h
    simp [matchWithin] at h
  | succ depth ih =>
    intro id t t' hn ht h
    dsimp only at hn
    have he := arena.matchWithin_leads passes depth
    unfold matchWithin at h
    split at h
    . simp at h
    . next hrule =>
      rw [nullable_eq hrule] at hn
      exact matchAll_gained he ih hn ht h
    . next hrule =>
      rw [nullable_eq hrule] at hn
      exact matchAny_gained he ih hn ht h
    . next min max body hrule =>
      rw [nullable_eq hrule] at hn
      simp only [Rule.isNullable, Bool.or_eq_false_iff, decide_eq_false_iff_not] at hn
      apply matchRepetition_gained _ _ _ ht h
      . intro t ht
        exact matchAll_leads he body ht
      . intro t t' ht h
        exact matchAll_gained he ih hn.2 ht h
      . omega
    . apply Tokenizer.acceptToken_gained ht h
      intro token htoken
      simp only [Rule.literalAccepts, Bool.and_eq_true, Bool.not_eq_true'] at htoken
      exact htoken.1
    . next hrule =>
      rw [nullable_eq hrule] at hn
      apply Tokenizer.acceptWordChar_gained ht h
      . exact hn
      . rfl
    . next hrule =>
      rw [nullable_eq hrule] at hn
      simp only [Rule.isNullable, decide_eq_false_iff_not] at hn
      apply Tokenizer.acceptToken_gained ht h
      intro token htoken
      simp only [decide_eq_true_eq] at htoken
      simpa [Token.isEndOfStream, htoken] using hn
    . simp at h
    . next hrule =>
      rw [nullable_eq hrule] at hn
      exact ih _ t t' hn ht h

end Arena

end TokenGrammar
