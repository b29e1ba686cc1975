import Mathlib.Data.List.Forall2
import TokenGrammar.Proofs.Tokenizer.View

/-!
The tokens that a tokenizer is still to deliver. They depend on its settings and on the token that comes
next, and on nothing else (`Tokenizer.remaining_congr`).
-/

namespace TokenGrammar

namespace Tokenizer

def remaining (t : Tokenizer) : List Token :=
  t.readAll.tokens.filter fun token => !token.isEndOfStream

theorem readAll_go_of_error {t t' : Tokenizer} {error : LexError} (h : t.nextToken = (.error error, t'))
    (read : List Token) : readAll.go read t = ⟨read.reverse, some error, t'⟩ := by
  rw [readAll.go]
  split
  . next heq =>
    rw [h, Prod.mk.injEq, Except.error.injEq] at heq
    rw [heq.1, heq.2]
  . next heq => simp [h] at heq

theorem readAll_go_of_end {t t' : Tokenizer} {token : Token} (h : t.nextToken = (.ok token, t'))
    (hend : token.isEndOfStream = true) (read : List Token) :
    readAll.go read t = ⟨(token :: read).reverse, none, t'⟩ := by
  rw [readAll.go]
  split
  . next heq => simp [h] at heq
  . next heq =>
    rw [h, Prod.mk.injEq, Except.ok.injEq] at heq
    obtain ⟨rfl, rfl⟩ := heq
    rw [dif_pos hend]

theorem readAll_go_of_token {t t' : Tokenizer} {token : Token} (h : t.nextToken = (.ok token, t'))
    (hend : token.isEndOfStream = false) (read : List Token) :
    readAll.go read t = readAll.go (token :: read) t' := by
  rw [readAll.go]
  split
  . next heq => simp [h] at heq
  . next heq =>
    rw [h, Prod.mk.injEq, Except.ok.injEq] at heq
    obtain ⟨rfl, rfl⟩ := heq
    rw [dif_neg (by simp [hend])]

theorem readAll_go_eq (read : List Token) (t : Tokenizer) :
    readAll.go read t = { t.readAll with tokens := read.reverse ++ t.readAll.tokens } := by
  unfold readAll
  induction hn : t.tokensLeft using Nat.strongRecOn generalizing t read with
  | ind n ih =>
    cases h : t.nextToken with
    | mk result t' =>
      cases result with
      | error error => simp [readAll_go_of_error h]
      | ok token =>
        cases hend : token.isEndOfStream with
        | true => simp [readAll_go_of_end h hend]
        | false =>
          have hlt := nextToken_ok_tokensLeft_lt h hend
          rw [readAll_go_of_token h hend, readAll_go_of_token h hend []]
          rw [ih t'.tokensLeft (by omega) (token :: read) t' rfl]
          rw [ih t'.tokensLeft (by omega) [token] t' rfl]
          simp

theorem readAll_of_token {t t' : Tokenizer} {token : Token} (h : t.nextToken = (.ok token, t'))
    (hend : token.isEndOfStream = false) :
    t.readAll = { t'.readAll with tokens := token :: t'.readAll.tokens } := by
  rw [readAll, readAll_go_of_token h hend, readAll_go_eq]
  rfl

theorem remaining_of_token {t t' : Tokenizer} {token : Token} (h : t.nextToken = (.ok token, t'))
    (hend : token.isEndOfStream = false) : t.remaining = token :: t'.remaining := by
  unfold remaining
  rw [readAll_of_token h hend]
  simp [hend]

theorem remaining_of_end {t t' : Tokenizer} {token : Token} (h : t.nextToken = (.ok token, t'))
    (hend : token.isEndOfStream = true) : t.remaining = [] := by
  unfold remaining readAll
  rw [readAll_go_of_end h hend]
  simp [hend]

structure Between (t : Tokenizer) : Prop where
  replay : t.replay = false
  word : t.word = none

theorem Between.peek {t : Tokenizer} (h : t.Between) : t.peek = t.config.upcoming t.cursor := by
  unfold Tokenizer.peek
  rw [h.replay, h.word]
  rfl

theorem took_between (t : Tokenizer) (token : Token) (cursor : Cursor) : (t.took token cursor).Between := by
  exact ⟨rfl, rfl⟩

theorem readAll_related {R : Tokenizer → Tokenizer → Prop} {T : Token → Token → Prop}
    (hstep : ∀ t t' : Tokenizer, R t t' → ∃ token u token' u', t.nextToken = (.ok token, u) ∧
      t'.nextToken = (.ok token', u') ∧ T token token' ∧ token.kind = token'.kind ∧ R u u')
    {t t' : Tokenizer} (h : R t t') : List.Forall₂ T t.readAll.tokens t'.readAll.tokens := by
  induction hn : t.tokensLeft using Nat.strongRecOn generalizing t t' with
  | ind n ih =>
    obtain ⟨token, u, token', u', hnext, hnext', htoken, hkind, hu⟩ := hstep t t' h
    have hends : token'.isEndOfStream = token.isEndOfStream := by
      unfold Token.isEndOfStream
      rw [hkind]
    cases hend : token.isEndOfStream with
    | true =>
      rw [hend] at hends
      unfold readAll
      rw [readAll_go_of_end hnext hend, readAll_go_of_end hnext' hends]
      exact .cons htoken .nil
    | false =>
      rw [hend] at hends
      have hlt := nextToken_ok_tokensLeft_lt hnext hend
      rw [readAll_of_token hnext hend, readAll_of_token hnext' hends]
      exact .cons htoken (ih u.tokensLeft (by omega) hu rfl)

structure Alongside (t t' : Tokenizer) : Prop where
  consistent : t.Consistent
  consistent' : t'.Consistent
  config : t.config = t'.config
  peek : t.peek = t'.peek

theorem readAll_alongside {t t' : Tokenizer} (h : t.Alongside t') :
    t.readAll.tokens = t'.readAll.tokens ∧ t.readAll.error = t'.readAll.error ∧
      t.readAll.after.cursor = t'.readAll.after.cursor := by
  induction hn : t.tokensLeft using Nat.strongRecOn generalizing t t' with
  | ind n ih =>
    have hnext := nextToken_eq fun hr => (h.consistent.replay hr).1
    have hnext' := nextToken_eq fun hr => (h.consistent'.replay hr).1
    rw [← h.peek] at hnext'
    cases hp : t.peek with
    | mk result cursor =>
      rw [hp] at hnext hnext'
      cases result with
      | error error =>
        unfold readAll
        rw [readAll_go_of_error hnext, readAll_go_of_error hnext']
        exact ⟨rfl, rfl, rfl⟩
      | ok token =>
        have hread := peek_readBefore h.consistent hp
        cases hend : token.isEndOfStream with
        | true =>
          unfold readAll
          rw [readAll_go_of_end hnext hend, readAll_go_of_end hnext' hend]
          exact ⟨rfl, rfl, rfl⟩
        | false =>
          have hlt := nextToken_ok_tokensLeft_lt hnext hend
          have htook : (t.took token cursor).Alongside (t'.took token cursor) := by
            refine ⟨took_consistent hread, took_consistent hread, h.config, ?_⟩
            rw [peek_took, peek_took, h.config]
          have hrest := ih _ (by omega) htook rfl
          rw [readAll_of_token hnext hend, readAll_of_token hnext' hend]
          exact ⟨by rw [hrest.1], hrest.2⟩

theorem readAll_congr {t t' : Tokenizer} (h : t.Alongside t') :
    t.readAll.tokens = t'.readAll.tokens ∧ t.readAll.error = t'.readAll.error := by
  obtain ⟨htokens, herror, _⟩ := readAll_alongside h
  exact ⟨htokens, herror⟩

theorem remaining_congr {t t' : Tokenizer} (h : t.Alongside t') : t.remaining = t'.remaining := by
  unfold remaining
  rw [(readAll_congr h).1]

end Tokenizer

def Config.tokensFrom (config : Config) (cursor : Cursor) : List Token :=
  ({ config, cursor } : Tokenizer).remaining

def Token.delivered (token : Token) : List Token :=
  if token.isEndOfStream then [] else [token]

def Token.leftOver (line : Nat) (cs : List Char) : List Token :=
  if cs = [] then [] else [{ kind := .word, text := String.ofList cs, line }]

namespace Tokenizer

theorem fresh_consistent (config : Config) (cursor : Cursor) :
    ({ config, cursor } : Tokenizer).Consistent := by
  constructor
  . simp
  . simp
  . simp
  . trivial
  . simp

theorem remaining_of_upcoming {t : Tokenizer} (h : t.Consistent) {cursor : Cursor}
    (hp : t.peek = t.config.upcoming cursor) : t.remaining = t.config.tokensFrom cursor := by
  apply remaining_congr
  exact ⟨h, fresh_consistent t.config cursor, rfl, hp⟩

theorem tokensFrom_nil (config : Config) (line : Nat) : config.tokensFrom ⟨[], line⟩ = [] := by
  have hnext := nextToken_eq (t := { config, cursor := ⟨[], line⟩ }) fun _ => rfl
  simp only [peek, Config.upcoming, Config.scan_nil, Bool.false_eq_true, ↓reduceIte] at hnext
  exact remaining_of_end hnext rfl

theorem remaining_of_peek {t : Tokenizer} (h : t.Consistent) {token : Token} {cursor : Cursor}
    (hp : t.peek = (.ok token, cursor)) :
    t.remaining = token.delivered ++ t.config.tokensFrom cursor := by
  have hnext := nextToken_eq fun hr => (h.replay hr).1
  have hread := peek_readBefore h hp
  rw [hp] at hnext
  unfold Token.delivered
  cases hend : token.isEndOfStream with
  | false =>
    rw [remaining_of_token hnext hend, remaining_of_upcoming (took_consistent hread) (peek_took t token cursor)]
    rfl
  | true =>
    obtain ⟨_, hinput⟩ := hread.atEnd hend
    have hcursor : cursor = ⟨[], cursor.line⟩ := by rw [← hinput]
    rw [remaining_of_end hnext hend, hcursor, tokensFrom_nil]
    rfl

theorem remaining_cons {t : Tokenizer} (h : t.Consistent) {token : Token} {cursor : Cursor}
    (hp : t.peek = (.ok token, cursor)) (hend : token.isEndOfStream = false) :
    t.remaining = token :: t.config.tokensFrom cursor := by
  rw [remaining_of_peek h hp]
  simp [Token.delivered, hend]

theorem remaining_nil {t : Tokenizer} (h : t.Consistent) {token : Token} {cursor : Cursor}
    (hp : t.peek = (.ok token, cursor)) (hend : token.isEndOfStream = true) : t.remaining = [] := by
  have hnext := nextToken_eq fun hr => (h.replay hr).1
  rw [hp] at hnext
  exact remaining_of_end hnext hend

theorem remaining_head {t : Tokenizer} (h : t.Consistent) {token : Token} {cursor : Cursor}
    (hp : t.peek = (.ok token, cursor)) : ∀ token' ∈ t.remaining.head?, token' = token := by
  cases hend : token.isEndOfStream with
  | true => simp [remaining_nil h hp hend]
  | false => simp [remaining_cons h hp hend]

theorem remaining_of_afterChar {t : Tokenizer} (h : t.Consistent) {line : Nat} {cs : List Char}
    {cursor : Cursor} (hp : t.peek = t.config.afterChar line cs cursor) :
    t.remaining = Token.leftOver line cs ++ t.config.tokensFrom cursor := by
  unfold Config.afterChar at hp
  unfold Token.leftOver
  split at hp
  . next hcs =>
    rw [if_pos hcs, remaining_of_upcoming h hp]
    rfl
  . next hcs =>
    rw [if_neg hcs, remaining_of_peek h hp]
    rfl

end Tokenizer

end TokenGrammar
