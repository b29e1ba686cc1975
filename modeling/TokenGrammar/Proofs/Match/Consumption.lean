import TokenGrammar.Proofs.Match.Fault
import TokenGrammar.Proofs.Match.Suffix
import TokenGrammar.Proofs.Tokenizer.Ending
import TokenGrammar.Proofs.Tokenizer.Lines

/-!
A rule that is not nullable takes text off the tokens to come whenever it matches
(`Arena.matchRule_consumes`). No token but the end of the stream is without text, so that a leaf that
takes something takes some text.
-/

namespace TokenGrammar

namespace Tokenizer

def textLeft (t : Tokenizer) : List Char :=
  t.remaining.flatMap fun token => token.text.toList

/-- Where the tokens to come end: the fault that comes after them, if there is one, and the place after it. -/
def stop (t : Tokenizer) : Option LexError × Cursor :=
  (t.readAll.error, t.readAll.after.cursor)

theorem textLeft_of_token {t t' : Tokenizer} {token : Token} (h : t.nextToken = (.ok token, t'))
    (hend : token.isEndOfStream = false) : t.textLeft = token.text.toList ++ t'.textLeft := by
  unfold textLeft
  rw [remaining_of_token h hend, List.flatMap_cons]

theorem textLeft_congr {t t' : Tokenizer} (h : t.Alongside t') : t.textLeft = t'.textLeft := by
  unfold textLeft
  rw [remaining_congr h]

theorem stop_of_token {t t' : Tokenizer} {token : Token} (h : t.nextToken = (.ok token, t'))
    (hend : token.isEndOfStream = false) : t.stop = t'.stop := by
  unfold stop
  rw [readAll_of_token h hend]

theorem stop_congr {t t' : Tokenizer} (h : t.Alongside t') : t.stop = t'.stop := by
  obtain ⟨_, herror, hcursor⟩ := readAll_alongside h
  unfold stop
  rw [herror, hcursor]

/-! The tokens of a reachable tokenizer have text. -/

def LastTexted (t : Tokenizer) : Prop :=
  ∀ token, t.last = some token → token.isEndOfStream = false → token.text ≠ ""

theorem LastTexted.peek {t : Tokenizer} (h : t.LastTexted) (ht : t.Consistent) {token : Token}
    {cursor : Cursor} (hp : t.peek = (.ok token, cursor)) (hend : token.isEndOfStream = false) :
    token.text ≠ "" := by
  unfold Tokenizer.peek at hp
  split at hp
  . next hr =>
    obtain ⟨_, last, hl⟩ := ht.replay hr
    rw [hl] at hp
    cases hp
    exact h _ hl hend
  . split at hp
    . exact Config.scan_text_ne (Config.scan_of_upcoming hp) hend
    . split at hp
      . exact Config.scan_text_ne (Config.scan_of_upcoming hp) hend
      . next he =>
        cases hp
        exact (remainder_readBefore (by simpa using he) t.cursor).text rfl

def LastFrom (t t' : Tokenizer) : Prop :=
  t'.last = t.last ∨ ∃ token cursor, t.peek = (.ok token, cursor) ∧ t'.last = some token

theorem LastTexted.of_lastFrom {t t' : Tokenizer} (h : t.LastTexted) (ht : t.Consistent)
    (hl : t.LastFrom t') : t'.LastTexted := by
  intro last hlast hend
  rcases hl with hsame | ⟨token, cursor, hp, hnew⟩
  . exact h last (hsame ▸ hlast) hend
  . rw [hnew, Option.some.injEq] at hlast
    rw [hlast] at hp
    exact h.peek ht hp hend

theorem nextToken_lastFrom {t : Tokenizer} (ht : t.Consistent) : t.LastFrom t.nextToken.2 := by
  rw [nextToken_eq fun hr => (ht.replay hr).1]
  split
  . next hp => exact .inr ⟨_, _, hp, rfl⟩
  . exact .inl rfl

theorem nextWordChar_lastFrom {t : Tokenizer} (ht : t.Consistent) : t.LastFrom t.nextWordChar.2 := by
  have outside (hs : t.stage = .idle ∨ t.stage = .past) : t.LastFrom t.nextWordChar.2 := by
    rw [nextWordChar_of_outside ht hs]
    split
    . exact .inl rfl
    . next token cursor hp =>
      refine .inr ⟨token, cursor, hp, ?_⟩
      split
      . next hk =>
        obtain ⟨c, cs, htext⟩ := exists_cons_of_readBefore (peek_readBefore ht hp) hk
        rw [activate_took t htext]
        rfl
      . rfl
  cases hs : t.stage with
  | idle => exact outside (Or.inl hs)
  | past => exact outside (Or.inr hs)
  | inside =>
    obtain ⟨word, hw, he⟩ := exists_word_of_inside hs
    obtain ⟨c, cs, _, hnext⟩ := nextWordChar_of_inside ht hw he
    rw [hnext]
    exact .inl rfl
  | atEnd =>
    obtain ⟨word, hw, he, hn⟩ := exists_word_of_atEnd hs
    rw [nextWordChar_of_atEnd hw he hn]
    exact .inl rfl

theorem Reachable.lastTexted {t : Tokenizer} (h : t.Reachable) : t.LastTexted := by
  induction h with
  | start config source => simp [LastTexted, ofSource]
  | nextToken ht ih => exact ih.of_lastFrom ht.consistent (nextToken_lastFrom ht.consistent)
  | pushBack ht ih => exact ih.of_lastFrom ht.consistent (.inl (pushBack_kept _).2)
  | nextWordChar ht ih => exact ih.of_lastFrom ht.consistent (nextWordChar_lastFrom ht.consistent)
  | pushBackWordChar ht ih => exact ih.of_lastFrom ht.consistent (.inl (pushBackWordChar_kept _).2)
  | configure config _ ih => exact ih

/-! What leaves take. -/

inductive Takes (t t' : Tokenizer) : Prop where
  | nothing (hc : t'.config = t.config) (hp : t'.peek = t.peek)
  | text {taken : List Char} (hne : taken ≠ []) (htext : t.textLeft = taken ++ t'.textLeft)
    (hstop : t'.stop = t.stop)

theorem takes_token {t t' : Tokenizer} (ht : t.Reachable) (ht' : t'.Consistent) {token : Token}
    {cursor : Cursor} (hp : t.peek = (.ok token, cursor)) (hc : t'.config = t.config)
    (hp' : t'.peek = t.config.upcoming cursor) : t.Takes t' := by
  have hread := peek_readBefore ht.consistent hp
  have hnext := nextToken_eq fun hr => (ht.consistent.replay hr).1
  rw [hp] at hnext
  cases hend : token.isEndOfStream with
  | true =>
    -- The end of the stream comes again and again.
    obtain ⟨htoken, hinput⟩ := hread.atEnd hend
    have hcursor : cursor = ⟨[], cursor.line⟩ := by rw [← hinput]
    refine .nothing hc ?_
    rw [hp', hp, htoken, hcursor, Config.upcoming, Config.scan_nil]
  | false =>
    have htook : (t.took token cursor).Alongside t' := by
      exact ⟨took_consistent hread, ht', hc.symm, (peek_took t token cursor).trans hp'.symm⟩
    have hne : token.text.toList ≠ [] := by
      simpa using ht.lastTexted.peek ht.consistent hp hend
    refine .text hne ?_ ?_
    . rw [textLeft_of_token hnext hend, textLeft_congr htook]
    . rw [stop_of_token hnext hend, stop_congr htook]

theorem takes_char {t t' : Tokenizer} (ht : t.Consistent) (ht' : t'.Consistent) {token rest : Token}
    {cursor : Cursor} {c : Char} (hp : t.peek = (.ok token, cursor)) (hk : token.kind = .word)
    (hc : t'.config = t.config) (hp' : t'.peek = (.ok rest, cursor)) (hk' : rest.kind = .word)
    (htext : token.text.toList = c :: rest.text.toList) : t.Takes t' := by
  have hnext := nextToken_eq fun hr => (ht.replay hr).1
  have hnext' := nextToken_eq fun hr => (ht'.replay hr).1
  rw [hp] at hnext
  rw [hp'] at hnext'
  have hend : token.isEndOfStream = false := by simp [Token.isEndOfStream, hk]
  have hend' : rest.isEndOfStream = false := by simp [Token.isEndOfStream, hk']
  have htook : (t.took token cursor).Alongside (t'.took rest cursor) := by
    refine ⟨took_consistent (peek_readBefore ht hp), took_consistent (peek_readBefore ht' hp'), hc.symm, ?_⟩
    rw [peek_took, peek_took, hc]
  refine .text (List.cons_ne_nil c []) ?_ ?_
  . rw [textLeft_of_token hnext hend, textLeft_of_token hnext' hend', textLeft_congr htook, htext]
    rfl
  . rw [stop_of_token hnext hend, stop_of_token hnext' hend', stop_congr htook]

theorem takes_of_step {t t' : Tokenizer} (ht : t.Reachable) (ht' : t'.Consistent)
    (h : t.view.Step t'.view) : t.Takes t' := by
  generalize hv : t'.view = v' at h
  have hpeek : t'.peek = v'.ahead := congrArg View.ahead hv
  have hconfig : t'.config = v'.config := congrArg View.config hv
  cases h with
  | nothing hc ha => exact .nothing (hconfig.trans hc) (hpeek.trans ha)
  | token ha => exact takes_token ht ht' ha hconfig hpeek
  | @char token cursor c cs ha hk htext =>
    by_cases hcs : cs = []
    . refine takes_token ht ht' ha hconfig (hpeek.trans ?_)
      simp only [View.within, Config.afterChar, hcs, ↓reduceIte]
      rfl
    . have hrest : t'.peek = (.ok { kind := .word, text := String.ofList cs, line := token.line }, cursor) := by
        rw [hpeek]
        simp only [View.within, Config.afterChar, hcs, ↓reduceIte]
      exact takes_char ht.consistent ht' ha hk hconfig hrest rfl (by simpa using htext)

theorem Takes.trans {a b c : Tokenizer} (ha : a.Consistent) (hb : b.Consistent) (hc : c.Consistent)
    (hab : a.Takes b) (hbc : b.Takes c) : a.Takes c := by
  cases hab with
  | nothing hconfig hpeek =>
    cases hbc with
    | nothing hconfig' hpeek' => exact .nothing (hconfig'.trans hconfig) (hpeek'.trans hpeek)
    | text hne htext hstop =>
      have hsame : a.Alongside b := ⟨ha, hb, hconfig.symm, hpeek.symm⟩
      refine .text hne ?_ (hstop.trans (stop_congr hsame).symm)
      rw [textLeft_congr hsame, htext]
  | text hne htext hstop =>
    cases hbc with
    | nothing hconfig hpeek =>
      have hsame : b.Alongside c := ⟨hb, hc, hconfig.symm, hpeek.symm⟩
      refine .text hne ?_ ((stop_congr hsame).symm.trans hstop)
      rw [htext, textLeft_congr hsame]
    | @text taken _ htext' hstop' =>
      refine .text (List.append_ne_nil_of_left_ne_nil hne taken) ?_ (hstop'.trans hstop)
      rw [htext, htext', List.append_assoc]

theorem takes_keptByLeaves : KeptByLeaves fun t t' => t.Reachable → t'.Reachable ∧ t.Takes t' := by
  constructor
  . intro t ht
    exact ⟨ht, .nothing rfl rfl⟩
  . intro a b c hab hbc ha
    obtain ⟨hb, htakes⟩ := hab ha
    obtain ⟨hc, htakes'⟩ := hbc hb
    exact ⟨hc, htakes.trans ha.consistent hb.consistent hc.consistent htakes'⟩
  . intro t test ht
    have hconsistent := (acceptToken_leads ht test).consistent
    refine ⟨hconsistent, ?_⟩
    intro verdict hv hreach
    exact ⟨acceptToken_reachable hreach test, takes_of_step hreach hconsistent (acceptToken_step ht hv)⟩
  . intro t test ht
    have hconsistent := (acceptWordChar_leads ht test).consistent
    refine ⟨hconsistent, ?_⟩
    intro verdict hv hreach
    exact ⟨acceptWordChar_reachable hreach test, takes_of_step hreach hconsistent (acceptWordChar_step ht hv)⟩

end Tokenizer

namespace Arena

theorem matchRule_consumes {arena : Arena} {id : RuleId} (hid : arena.nullable.getD id false = false)
    {t t' : Tokenizer} (ht : t.Reachable) (h : arena.matchRule id t = (.ok true, t')) :
    t'.textLeft.length < t.textLeft.length ∧ t'.textLeft <:+ t.textLeft ∧ t'.stop = t.stop := by
  have hmoves := matchRule_moves Tokenizer.takes_keptByLeaves arena id ht.consistent
  have hgained := arena.matchWithin_gained _ _ id t t' hid ht.consistent h
  rw [h] at hmoves
  have htakes : t.Takes t' := (hmoves.moved true rfl ht).2
  cases htakes with
  | nothing _ hpeek =>
    have hleft : t'.left = t.left := congrArg Tokenizer.workAhead hpeek
    have := hgained.left
    omega
  | @text taken hne htext hstop =>
    refine ⟨?_, ?_, hstop⟩
    . have hpos := List.length_pos_iff.2 hne
      rw [htext, List.length_append]
      omega
    . rw [htext]
      exact List.suffix_append _ _

def lettersReversed : Arena :=
  ⟨#[.charClass (.exact 'a'), .charClass (.exact 'b'), .repetition 0 none [1], .sequence [2, 0]]⟩

def insideWord : Tokenizer :=
  (Tokenizer.ofSource {} (Source.ofText "bba cd e " ++ [.fault .truncated])).nextWordChar.2

theorem matchRule_consumes_insideWord :
    lettersReversed.nullable.getD 3 false = false ∧
    (lettersReversed.matchRule 3 insideWord).1 = .ok true ∧
    insideWord.textLeft = ['b', 'a', 'c', 'd', 'e'] ∧
    (lettersReversed.matchRule 3 insideWord).2.textLeft.length < insideWord.textLeft.length ∧
    (lettersReversed.matchRule 3 insideWord).2.textLeft <:+ insideWord.textLeft ∧
    (lettersReversed.matchRule 3 insideWord).2.stop = insideWord.stop := by
  have hid : lettersReversed.nullable.getD 3 false = false := by
    decide +kernel
  have hmatch : lettersReversed.matchRule 3 insideWord =
      (.ok true, (lettersReversed.matchRule 3 insideWord).2) := by
    decide +kernel
  have hreach : insideWord.Reachable := .nextWordChar (.start _ _)
  refine ⟨hid, by decide +kernel, by decide +kernel, ?_⟩
  exact matchRule_consumes hid hreach hmatch

end Arena

end TokenGrammar
