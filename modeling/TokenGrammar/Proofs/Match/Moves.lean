import TokenGrammar.Proofs.Tokenizer.Consistent

/-!
What holds along a match. If the leaves keep to a relation between token streams, which goes on from one
stream to the next, then so do all rules, within any bounds (`Arena.matchWithin_moves`).
-/

namespace TokenGrammar

namespace Tokenizer

structure Moves (R : Tokenizer → Tokenizer → Prop) (t : Tokenizer) (attempt : Attempt) : Prop where
  consistent : attempt.2.Consistent
  moved : ∀ verdict, attempt.1 = .ok verdict → R t attempt.2

structure KeptByLeaves (R : Tokenizer → Tokenizer → Prop) : Prop where
  refl : ∀ t : Tokenizer, R t t
  trans : ∀ {a b c : Tokenizer}, R a b → R b c → R a c
  token : ∀ {t : Tokenizer} (test : Token → Bool), t.Consistent → t.Moves R (t.acceptToken test)
  char : ∀ {t : Tokenizer} (test : WordRead → Bool), t.Consistent → t.Moves R (t.acceptWordChar test)

variable {R : Tokenizer → Tokenizer → Prop}

theorem KeptByLeaves.halt (hR : KeptByLeaves R) {t : Tokenizer} (h : t.Consistent)
    (result : Except MatchError Bool) : t.Moves R (result, t) := by
  exact ⟨h, fun _ _ => hR.refl t⟩

theorem Moves.after (hR : KeptByLeaves R) {t t' : Tokenizer} {attempt : Attempt}
    (ha : t'.Moves R attempt) (h : R t t') : t.Moves R attempt := by
  exact ⟨ha.consistent, fun verdict hv => hR.trans h (ha.moved verdict hv)⟩

end Tokenizer

namespace Arena

open Tokenizer

variable {R : Tokenizer → Tokenizer → Prop} (hR : KeptByLeaves R)
  {enter : RuleId → Tokenizer → Attempt}

include hR

theorem matchAll_moves (he : ∀ (id : RuleId) (t : Tokenizer), t.Consistent → t.Moves R (enter id t))
    (rules : List RuleId) {t : Tokenizer} (ht : t.Consistent) : t.Moves R (matchAll enter rules t) := by
  induction rules generalizing t with
  | nil => exact hR.halt ht _
  | cons rule rules ih =>
    have hrule := he rule t ht
    unfold matchAll
    split
    . next heq =>
      rw [heq] at hrule
      exact (ih hrule.consistent).after hR (hrule.moved true rfl)
    . exact hrule

theorem matchAny_moves (he : ∀ (id : RuleId) (t : Tokenizer), t.Consistent → t.Moves R (enter id t))
    (rules : List RuleId) {t : Tokenizer} (ht : t.Consistent) : t.Moves R (matchAny enter rules t) := by
  induction rules generalizing t with
  | nil => exact hR.halt ht _
  | cons rule rules ih =>
    have hrule := he rule t ht
    unfold matchAny
    split
    . next heq =>
      rw [heq] at hrule
      exact (ih hrule.consistent).after hR (hrule.moved false rfl)
    . exact hrule

theorem matchRepetition_moves {body : Tokenizer → Attempt}
    (hbody : ∀ t : Tokenizer, t.Consistent → t.Moves R (body t)) (rule : RuleId) (min : Nat)
    (max : Option Nat) (passes count : Nat) {t : Tokenizer} (ht : t.Consistent) :
    t.Moves R (matchRepetition rule min max body passes count t) := by
  induction passes generalizing count t with
  | zero => exact hR.halt ht _
  | succ passes ih =>
    have hpass := hbody t ht
    unfold matchRepetition
    split
    . exact hR.halt ht _
    . split
      . next heq =>
        rw [heq] at hpass
        exact hpass
      . next heq =>
        rw [heq] at hpass
        exact ⟨hpass.consistent, fun _ _ => hpass.moved false rfl⟩
      . next heq =>
        rw [heq] at hpass
        split
        . exact hpass
        . exact (ih (count + 1) hpass.consistent).after hR (hpass.moved true rfl)

theorem matchWithin_moves (arena : Arena) (passes depth : Nat) (id : RuleId) (t : Tokenizer)
    (ht : t.Consistent) : t.Moves R (arena.matchWithin passes depth id t) := by
  induction depth generalizing id t with
  | zero => exact hR.halt ht _
  | succ depth ih =>
    unfold matchWithin
    split
    . exact hR.halt ht _
    . exact matchAll_moves hR ih _ ht
    . exact matchAny_moves hR ih _ ht
    . apply matchRepetition_moves hR _ _ _ _ _ _ ht
      intro t ht
      exact matchAll_moves hR ih _ ht
    . exact hR.token _ ht
    . exact hR.char _ ht
    . exact hR.token _ ht
    . exact hR.halt ht _
    . exact ih _ t ht

theorem matchRule_moves (arena : Arena) (id : RuleId) {t : Tokenizer} (ht : t.Consistent) :
    t.Moves R (arena.matchRule id t) := by
  apply matchWithin_moves hR
  exact ht

end Arena

end TokenGrammar
