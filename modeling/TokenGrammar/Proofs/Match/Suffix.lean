import TokenGrammar.Proofs.Match.Forward
import TokenGrammar.Proofs.Tokenizer.Remaining

/-!
What a match leaves of the tokens to come. It is a suffix of them, or a suffix whose first token is cut
down to the last characters of a word (`Token.CutSuffix`). Where the mark is the same after the match,
all of them are left (`Arena.matchRule_remaining`).
-/

namespace TokenGrammar

namespace Token

def EndOf (token word : Token) : Prop :=
  word.kind = .word ∧ ∃ read cs : List Char, read ≠ [] ∧ cs ≠ [] ∧ word.text.toList = read ++ cs ∧
    token = { kind := .word, text := String.ofList cs, line := word.line }

theorem EndOf.trans {a b c : Token} (hba : b.EndOf a) (hcb : c.EndOf b) : c.EndOf a := by
  obtain ⟨hk, read, cs, hread, _, htext, rfl⟩ := hba
  obtain ⟨_, read', cs', _, hcs', htext', rfl⟩ := hcb
  rw [String.toList_ofList] at htext'
  refine ⟨hk, read ++ read', cs', by simp [hread], hcs', ?_, rfl⟩
  rw [htext, htext', List.append_assoc]

/-- A suffix of the tokens, or else one whose first token is only the end of a word. -/
inductive CutSuffix (tokens : List Token) : List Token → Prop where
  | whole {rest : List Token} (hs : rest <:+ tokens) : CutSuffix tokens rest
  | cut {word token : Token} {rest : List Token} (hs : word :: rest <:+ tokens) (hw : token.EndOf word) :
    CutSuffix tokens (token :: rest)

theorem CutSuffix.refl (tokens : List Token) : CutSuffix tokens tokens := by
  exact .whole (List.suffix_refl _)

theorem CutSuffix.of_suffix {a b c : List Token} (hab : b <:+ a) (hbc : CutSuffix b c) :
    CutSuffix a c := by
  cases hbc with
  | whole hs => exact .whole (hs.trans hab)
  | cut hs hw => exact .cut (hs.trans hab) hw

theorem CutSuffix.trans {a b c : List Token} (hab : CutSuffix a b) (hbc : CutSuffix b c) :
    CutSuffix a c := by
  cases hab with
  | whole hs => exact hbc.of_suffix hs
  | @cut word token rest hs hw =>
    have hrest : rest <:+ a := (List.suffix_cons word rest).trans hs
    cases hbc with
    | whole hs' =>
      -- Either the cut word is still there, or the rest starts behind it.
      rcases List.suffix_cons_iff.1 hs' with rfl | hs'
      . exact .cut hs hw
      . exact .whole (hs'.trans hrest)
    | cut hs' hw' =>
      rcases List.suffix_cons_iff.1 hs' with heq | hs'
      . rw [List.cons.injEq] at heq
        obtain ⟨rfl, rfl⟩ := heq
        exact .cut hs (hw.trans hw')
      . exact .cut (hs'.trans hrest) hw'

end Token

namespace View

inductive Step (v : View) : View → Prop where
  | nothing {v' : View} (hc : v'.config = v.config) (ha : v'.ahead = v.ahead) : Step v v'
  | token {token : Token} {cursor : Cursor} (ha : v.ahead = (.ok token, cursor)) :
    Step v (v.movedTo cursor)
  | char {token : Token} {cursor : Cursor} {c : Char} {cs : List Char}
    (ha : v.ahead = (.ok token, cursor)) (hk : token.kind = .word) (ht : token.text.toList = c :: cs) :
    Step v (v.within token.line cs cursor)

theorem acceptToken_step {v v' : View} {test : Token → Bool} {verdict : Bool}
    (h : v.acceptToken test = (.ok verdict, v')) : v.Step v' := by
  unfold acceptToken at h
  split at h
  . simp at h
  . next ha =>
    split at h
    . rw [← (Prod.mk.inj h).2]
      exact .token ha
    . rw [← (Prod.mk.inj h).2]
      exact .nothing rfl rfl

theorem acceptWordChar_step {v v' : View} {test : WordRead → Bool} {verdict : Bool}
    (h : v.acceptWordChar test = (.ok verdict, v')) : v.Step v' := by
  unfold acceptWordChar at h
  split at h
  . split at h
    . rw [← (Prod.mk.inj h).2]
      exact .nothing rfl rfl
    . rw [← (Prod.mk.inj h).2]
      exact .nothing rfl rfl
  . split at h
    . simp at h
    . next ha =>
      split at h
      . next hk ht =>
        split at h
        . rw [← (Prod.mk.inj h).2]
          exact .char ha hk ht
        . rw [← (Prod.mk.inj h).2]
          split
          . exact .nothing rfl rfl
          . exact .nothing rfl rfl
      . rw [← (Prod.mk.inj h).2]
        exact .nothing rfl rfl

end View

namespace Tokenizer

theorem acceptToken_step {t : Tokenizer} (h : t.Consistent) {test : Token → Bool} {verdict : Bool}
    (hv : (t.acceptToken test).1 = .ok verdict) : t.view.Step (t.acceptToken test).2.view := by
  apply View.acceptToken_step
  rw [← acceptToken_view h, hv]

theorem acceptWordChar_step {t : Tokenizer} (h : t.Consistent) {test : WordRead → Bool} {verdict : Bool}
    (hv : (t.acceptWordChar test).1 = .ok verdict) : t.view.Step (t.acceptWordChar test).2.view := by
  apply View.acceptWordChar_step
  rw [← acceptWordChar_view h, hv]

theorem cutSuffix_of_step {t t' : Tokenizer} (ht : t.Consistent) (ht' : t'.Consistent)
    (h : t.view.Step t'.view) : Token.CutSuffix t.remaining t'.remaining := by
  generalize hv : t'.view = v' at h
  have hpeek : t'.peek = v'.ahead := congrArg View.ahead hv
  have hconfig : t'.config = v'.config := congrArg View.config hv
  cases h with
  | nothing hc ha =>
    rw [remaining_congr ⟨ht', ht, hconfig.trans hc, hpeek.trans ha⟩]
    apply Token.CutSuffix.refl
  | @token token cursor ha =>
    have hnext : t'.peek = t'.config.upcoming cursor := by
      rw [hpeek, hconfig]
      rfl
    rw [remaining_of_upcoming ht' hnext, remaining_of_peek ht ha, hconfig]
    exact .whole (List.suffix_append _ _)
  | @char token cursor c cs ha hk htext =>
    have hnext : t'.peek = t'.config.afterChar token.line cs cursor := by
      rw [hpeek, hconfig]
      rfl
    have hword : token.delivered = [token] := by
      simp [Token.delivered, Token.isEndOfStream, hk]
    rw [remaining_of_afterChar ht' hnext, remaining_of_peek ht ha, hconfig, hword]
    unfold Token.leftOver
    split
    . exact .whole (List.suffix_append _ _)
    . next hcs => exact .cut (List.suffix_refl _) ⟨hk, [c], cs, by simp, hcs, htext, rfl⟩

theorem cutSuffix_keptByLeaves :
    KeptByLeaves fun t t' => Token.CutSuffix t.remaining t'.remaining := by
  constructor
  . intro t
    apply Token.CutSuffix.refl
  . intro a b c
    exact Token.CutSuffix.trans
  . intro t test ht
    have hconsistent := (acceptToken_leads ht test).consistent
    refine ⟨hconsistent, ?_⟩
    intro verdict hv
    exact cutSuffix_of_step ht hconsistent (acceptToken_step ht hv)
  . intro t test ht
    have hconsistent := (acceptWordChar_leads ht test).consistent
    refine ⟨hconsistent, ?_⟩
    intro verdict hv
    exact cutSuffix_of_step ht hconsistent (acceptWordChar_step ht hv)

theorem Still.remaining {t t' : Tokenizer} (h : t.Still t') (ht : t.Consistent) (ht' : t'.Consistent) :
    t'.remaining = t.remaining := by
  exact remaining_congr ⟨ht', ht, h.config, h.peek⟩

end Tokenizer

namespace Arena

theorem matchRule_remaining (arena : Arena) (id : RuleId) {t t' : Tokenizer} (ht : t.Reachable)
    {verdict : Bool} (h : arena.matchRule id t = (.ok verdict, t')) :
    Token.CutSuffix t.remaining t'.remaining ∧ (t'.mark = t.mark → t'.remaining = t.remaining) := by
  have hleads := arena.matchRule_leads id t ht.consistent
  have hmoves := matchRule_moves Tokenizer.cutSuffix_keptByLeaves arena id ht.consistent
  rw [h] at hleads hmoves
  refine ⟨hmoves.moved verdict rfl, ?_⟩
  intro hmark
  have hforward := hleads.forward verdict rfl
  have hleft := ((hforward.mark_eq_iff ht.consistent).1 hmark).1
  exact (hforward.still hleft).remaining ht.consistent hleads.consistent

def letters : Arena :=
  ⟨#[.charClass (.exact 'a'), .charClass (.exact 'b'), .repetition 0 none [1]]⟩

def twoWords : Tokenizer :=
  Tokenizer.ofSource {} (Source.ofText "ab c")

theorem matchRule_remaining_twoWords :
    (letters.matchRule 0 twoWords).1 = .ok true ∧
    Token.CutSuffix twoWords.remaining (letters.matchRule 0 twoWords).2.remaining ∧
    (letters.matchRule 2 twoWords).1 = .ok true ∧
    (letters.matchRule 2 twoWords).2.mark = twoWords.mark ∧
    (letters.matchRule 2 twoWords).2.remaining = twoWords.remaining := by
  have hone : letters.matchRule 0 twoWords =
      (.ok true, (letters.matchRule 0 twoWords).2) := by
    decide +kernel
  have hmany : letters.matchRule 2 twoWords =
      (.ok true, (letters.matchRule 2 twoWords).2) := by
    decide +kernel
  have hmark : (letters.matchRule 2 twoWords).2.mark = twoWords.mark := by
    decide +kernel
  have hreach : twoWords.Reachable := .start _ _
  refine ⟨by decide +kernel, (matchRule_remaining _ 0 hreach hone).1, by decide +kernel, hmark, ?_⟩
  exact (matchRule_remaining _ 2 hreach hmany).2 hmark

end Arena

end TokenGrammar
