import TokenGrammar.Proofs.Match.Transparency
import TokenGrammar.Proofs.Match.Verdict
import TokenGrammar.Proofs.Tokenizer.Delivery

/-!
A repetition of a leaf for tokens takes the tokens to come for as long as the leaf accepts them and the
maximum allows it, and no others (`Arena.matchRule_leadingRun`).
-/

namespace TokenGrammar

theorem Rule.acceptsToken_of_end {rule : Rule} (h : rule ≠ .token .endOfStream) (caseSensitive : Bool)
    {token : Token} (hend : token.isEndOfStream = true) :
    rule.acceptsToken caseSensitive token = false := by
  cases rule with
  | literal word => simp [acceptsToken, literalAccepts, hend]
  | token kind =>
    simp only [Token.isEndOfStream, decide_eq_true_eq] at hend
    simp only [acceptsToken, hend, decide_eq_false_iff_not]
    rintro rfl
    exact h rfl
  | _ => rfl

namespace Tokenizer

theorem acceptToken_first {t : Tokenizer} (h : t.Clean) {test : Token → Bool}
    (hend : ∀ token, token.isEndOfStream = true → test token = false) :
    (∃ token t', t.acceptToken test = (.ok true, t') ∧ t'.Clean ∧ t.Gained t' ∧
      test token = true ∧ t.remaining = token :: t'.remaining) ∨
    ∃ t', t.acceptToken test = (.ok false, t') ∧ t'.remaining = t.remaining ∧
      ∀ token ∈ t.remaining.head?, test token = false := by
  obtain ⟨token, cursor, hp, hnext, hclean⟩ := h.nextToken
  have hread := peek_readBefore h.consistent hp
  have haccept := acceptToken_eq h.consistent test
  rw [hp] at haccept
  dsimp only at haccept
  cases htest : test token with
  | true =>
    have hnotEnd : token.isEndOfStream = false := by
      cases hends : token.isEndOfStream with
      | false => rfl
      | true => simp [hend token hends] at htest
    rw [htest, if_pos rfl] at haccept
    exact Or.inl ⟨token, _, haccept, hclean, took_gained hp hread hnotEnd, htest,
      remaining_of_token hnext hnotEnd⟩
  | false =>
    rw [htest, if_neg (by simp)] at haccept
    refine Or.inr ⟨_, haccept, ?_, ?_⟩
    . exact remaining_congr ⟨held_consistent hread, h.consistent, rfl, by rw [hp, peek_held]⟩
    . intro token' hmem
      rwa [remaining_head h.consistent hp token' hmem]

end Tokenizer

namespace Arena

def upTo (max : Option Nat) (n : Nat) : Nat :=
  max.elim n (min n)

theorem upTo_zero (max : Option Nat) : upTo max 0 = 0 := by
  cases max with
  | none => rfl
  | some m => simp [upTo]

theorem upTo_succ {max : Option Nat} {count : Nat} (h : ¬max.any (· ≤ count) = true) (n : Nat) :
    upTo (max.map (· - count)) (n + 1) = upTo (max.map (· - (count + 1))) n + 1 := by
  cases max with
  | none => rfl
  | some m =>
    simp only [Option.any_some, decide_eq_true_eq] at h
    simp only [upTo, Option.map_some, Option.elim_some]
    omega

theorem upTo_of_any {max : Option Nat} {count : Nat} (h : max.any (· ≤ count) = true) (n : Nat) :
    upTo (max.map (· - count)) n = 0 := by
  cases max with
  | none => simp at h
  | some m =>
    simp only [Option.any_some, decide_eq_true_eq] at h
    simp only [upTo, Option.map_some, Option.elim_some]
    omega

theorem upTo_of_le {max : Option Nat} {n : Nat} (h : ∀ m, max = some m → n ≤ m) : upTo max n = n := by
  cases max with
  | none => rfl
  | some m => exact Nat.min_eq_left (h m rfl)

theorem le_upTo_iff {min n : Nat} {max : Option Nat} (h : ∀ m, max = some m → min ≤ m) :
    min ≤ upTo max n ↔ min ≤ n := by
  cases max with
  | none => rfl
  | some m =>
    have := h m rfl
    simp only [upTo, Option.elim_some]
    omega

-- The count and what the maximum still allows move together, one pass at a time.
theorem matchRepetition_leadingRun {body : Tokenizer → Attempt} {config : Config} {test : Token → Bool}
    (hbody : ∀ t : Tokenizer, t.config = config → body t = t.acceptToken test)
    (hend : ∀ token, token.isEndOfStream = true → test token = false) (rule : RuleId) (min : Nat)
    (max : Option Nat) {passes : Nat} (count : Nat) {t : Tokenizer} (ht : t.Clean)
    (hconfig : t.config = config) (hpasses : t.passRank < passes) :
    let taken := upTo (max.map (· - count)) (t.remaining.takeWhile test).length
    ∃ t', matchRepetition rule min max body passes count t = (.ok (min ≤ count + taken), t') ∧
      t'.remaining = t.remaining.drop taken := by
  induction passes generalizing count t with
  | zero => omega
  | succ passes ih =>
    unfold matchRepetition
    by_cases hmax : max.any (· ≤ count) = true
    . rw [if_pos hmax, upTo_of_any hmax]
      exact ⟨t, rfl, rfl⟩
    . rw [if_neg hmax, hbody t hconfig]
      rcases t.acceptToken_first ht hend with ⟨token, u, hu, hclean, hgained, htoken, hremaining⟩ |
        ⟨u, hu, hremaining, hnone⟩
      . have hmark := hgained.mark_ne ht.consistent
        have hforward : t.Forward u := Or.inr hgained
        have hrank := hforward.passRank_lt ht.consistent hmark
        obtain ⟨t', heq, hrest⟩ :=
          ih (count + 1) hclean (hgained.config.trans hconfig) (by omega)
        rw [hu, hremaining, List.takeWhile_cons_of_pos htoken, List.length_cons, upTo_succ hmax]
        dsimp only
        rw [if_neg hmark, heq]
        refine ⟨t', ?_, hrest⟩
        rw [Nat.add_right_comm, Nat.add_assoc]
      . have hrun : t.remaining.takeWhile test = [] := by
          cases htokens : t.remaining with
          | nil => rfl
          | cons token tokens =>
            apply List.takeWhile_cons_of_neg
            simpa [htokens] using hnone
        rw [hu, hrun, List.length_nil, upTo_zero]
        exact ⟨u, rfl, hremaining⟩

theorem matchRule_leadingRun {arena : Arena} {id leaf : RuleId} {rule : Rule} {min : Nat}
    {max : Option Nat} (hid : arena.get? id = some (.repetition min max [leaf]))
    (hrule : arena.get? leaf = some rule) (hleaf : rule.isTokenLeaf = true)
    (hend : rule ≠ .token .endOfStream) (hmax : ∀ m, max = some m → min ≤ m) {t : Tokenizer}
    (ht : t.Reachable) (hs : ∀ error, Read.fault error ∉ t.cursor.input) :
    let accepts := rule.acceptsToken t.config.caseSensitive
    let run := t.remaining.takeWhile accepts
    ∃ t', arena.matchRule id t = (.ok (min ≤ run.length), t') ∧
      t'.remaining = t.remaining.drop (upTo max run.length) ∧
      ((∀ m, max = some m → run.length ≤ m) → ∀ token ∈ t'.remaining.head?, accepts token = false) := by
  intro accepts run
  have hfits := passRank_lt_passBound ht.consistent
  obtain ⟨depth, hdepth⟩ : ∃ n, arena.depthBound t = n + 2 := by
    have : 4 * 1 * 2 ≤ arena.depthBound t :=
      Nat.mul_le_mul (Nat.mul_le_mul_left 4 (by omega)) (by omega)
    exact ⟨arena.depthBound t - 2, by omega⟩
  have hbody : ∀ u : Tokenizer, u.config = t.config →
      matchAll (arena.matchWithin (passBound t) (depth + 1)) [leaf] u = u.acceptToken accepts := by
    intro u hu
    rw [matchAll_singleton, matchWithin_acceptsToken hrule hleaf, hu]
  obtain ⟨t', heq, hremaining⟩ := matchRepetition_leadingRun hbody
    (fun _ => Rule.acceptsToken_of_end hend _) id min max 0 ⟨ht.consistent, hs⟩ rfl hfits
  simp only [Nat.sub_zero, Option.map_id_fun', id_eq, Nat.zero_add, le_upTo_iff hmax] at heq hremaining
  refine ⟨t', ?_, hremaining, ?_⟩
  . rw [matchRule, hdepth]
    simp only [matchWithin, hid]
    exact heq
  . intro hfull
    have hrest : t'.remaining = t.remaining.dropWhile accepts :=
      calc t'.remaining
        _ = t.remaining.drop run.length := by rw [hremaining, upTo_of_le hfull]
        _ = (run ++ t.remaining.dropWhile accepts).drop run.length := by
          rw [List.takeWhile_append_dropWhile]
        _ = t.remaining.dropWhile accepts := List.drop_left
    intro token hhead
    have hstop := List.head?_dropWhile_not accepts t.remaining
    rwa [← hrest, Option.mem_def.mp hhead] at hstop

def repeatedWord : Arena :=
  ⟨#[.literal "b", .repetition 0 none [0], .repetition 1 (some 2) [0]]⟩

def threeWords : Tokenizer :=
  (Tokenizer.ofSource { caseSensitive := false } (Source.ofText "ab B b 12")).nextWordChar.2

theorem matchRule_leadingRun_threeWords :
    (∃ t', repeatedWord.matchRule 1 threeWords = (.ok true, t') ∧
      t'.remaining = threeWords.remaining.drop 3 ∧
      ∀ token ∈ t'.remaining.head?, (Rule.literal "b").acceptsToken false token = false) ∧
    ∃ t', repeatedWord.matchRule 2 threeWords = (.ok true, t') ∧
      t'.remaining = threeWords.remaining.drop 2 := by
  have hword : repeatedWord.get? 0 = some (.literal "b") := rfl
  have hmany : repeatedWord.get? 1 = some (.repetition 0 none [0]) := rfl
  have hfew : repeatedWord.get? 2 = some (.repetition 1 (some 2) [0]) := rfl
  have hreach : threeWords.Reachable := .nextWordChar (.start _ _)
  have hcase : threeWords.config.caseSensitive = false := by
    decide +kernel
  have hinput : threeWords.cursor.input = Source.ofText " B b 12" := by
    decide +kernel
  have hs : ∀ error, Read.fault error ∉ threeWords.cursor.input := by
    simp [hinput, Source.ofText]
  have hrun : (threeWords.remaining.takeWhile
      ((Rule.literal "b").acceptsToken threeWords.config.caseSensitive)).length = 3 := by
    decide +kernel
  constructor
  . obtain ⟨t', heq, hremaining, hstop⟩ :=
      matchRule_leadingRun hmany hword rfl (by simp) (by simp) hreach hs
    rw [hrun] at heq hremaining
    rw [hcase] at hstop
    exact ⟨t', heq, hremaining, hstop (by simp)⟩
  . obtain ⟨t', heq, hremaining, -⟩ :=
      matchRule_leadingRun hfew hword rfl (by simp) (by simp) hreach hs
    rw [hrun] at heq hremaining
    exact ⟨t', heq, hremaining⟩

end Arena

end TokenGrammar
