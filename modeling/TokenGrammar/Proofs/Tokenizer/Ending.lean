import TokenGrammar.Proofs.Tokenizer.Ignoring
import TokenGrammar.Proofs.Tokenizer.Spelling

/-!
Reading tokens comes to the end of the stream, whatever the settings: no more tokens come before it than the text
has characters, and it stays there (`Tokenizer.run_nextToken_ends`). Delimiters may be empty; an empty opener opens
nothing, and a comment that an empty closer ends at once still has its opener.
-/

namespace TokenGrammar

theorem Token.Spells.text_ne {config : Config} {token : Token} {chunk : List Char} (h : token.Spells config chunk)
    (hne : chunk ≠ []) : token.text ≠ "" := by
  by_cases hkind : token.kind = .newline
  . simp only [Token.Spells, hkind] at h
    simp [h.1]
  . rw [h.text_eq hkind, ← String.toList_inj.ne]
    simpa using hne

theorem Token.SpellsOpen.text_ne {config : Config} {token : Token} {chunk : List Char}
    (h : token.SpellsOpen config chunk) : token.text ≠ "" := by
  obtain ⟨_, quote, _, ht⟩ := h
  rw [ht, ← String.toList_inj.ne]
  simp

namespace Config

variable {config : Config} {cursor after : Cursor} {token : Token}

theorem lexeme_text_ne (h : config.lexeme cursor = (.ok token, after)) (hne : cursor.input ≠ []) :
    token.text ≠ "" := by
  obtain ⟨chunk, hsplit, hspells⟩ := lexeme_spells h hne
  have hlt := config.lexeme_length_lt hne
  rw [h] at hlt
  rcases hspells with hspells | ⟨hspells, _⟩
  . apply hspells.text_ne
    rintro rfl
    rw [hsplit] at hlt
    simp at hlt
  . exact hspells.text_ne

theorem scan_text_ne (h : config.scan cursor = (.ok token, after)) (hend : token.isEndOfStream = false) :
    token.text ≠ "" := by
  fun_induction config.scan cursor with
  | case1 cursor ignored next heq hi hlt ih => exact ih h
  | case2 cursor token' next heq hi =>
    cases h
    exact lexeme_text_ne heq (input_ne_nil_of_lexeme heq hend)
  | case3 => simp at h

theorem scan_of_upcoming (h : config.upcoming cursor = (.ok token, after)) :
    config.scan cursor = (.ok token, after) := by
  unfold upcoming at h
  split at h
  . next heq =>
    cases h
    exact heq
  . simp at h

theorem scan_consumes (h : config.scan cursor = (.ok token, after)) (hend : token.isEndOfStream = false) :
    ∃ chars : List Char, chars ≠ [] ∧ cursor.input = chars.map .char ++ after.input := by
  have hexact := config.scan_exact cursor
  have hlt := scan_ok_length_lt h hend
  rw [h] at hexact
  obtain ⟨chars, hsplit⟩ := hexact
  refine ⟨chars, ?_, hsplit⟩
  rintro rfl
  rw [hsplit] at hlt
  simp at hlt

end Config

namespace Tokenizer

def afterTokens (t : Tokenizer) (n : Nat) : Tokenizer :=
  t.run (List.replicate n .nextToken)

structure Consumes (t t' : Tokenizer) (token : Token) : Prop where
  read : t.nextToken = (.ok token, t')
  notEnd : token.isEndOfStream = false
  text : token.text ≠ ""
  consumed : ∃ chars : List Char, chars ≠ [] ∧ t.cursor.input = chars.map .char ++ t'.cursor.input

structure AtEnd (t : Tokenizer) (line : Nat) : Prop where
  between : t.Between
  cursor : t.cursor = ⟨[], line⟩

theorem AtEnd.nextToken {t : Tokenizer} {line : Nat} (h : t.AtEnd line) :
    t.nextToken.1 = .ok (.endOfStream line) ∧ t.nextToken.2.AtEnd line := by
  rw [nextToken_eq fun _ => h.between.word, h.between.peek, h.cursor, Config.upcoming, Config.scan_nil]
  exact ⟨rfl, took_between _ _ _, rfl⟩

theorem AtEnd.afterTokens {t : Tokenizer} {line : Nat} (h : t.AtEnd line) (n : Nat) :
    (t.afterTokens n).AtEnd line := by
  induction n generalizing t with
  | zero => exact h
  | succ n ih => exact ih h.nextToken.2

theorem Between.nextToken {t : Tokenizer} (hb : t.Between) (hclean : t.Clean) :
    (∃ line, t.nextToken.1 = .ok (.endOfStream line) ∧ t.nextToken.2.AtEnd line) ∨
      ∃ token, t.Consumes t.nextToken.2 token ∧ t.nextToken.2.Between ∧ t.nextToken.2.Clean := by
  obtain ⟨token, cursor, hp, hnext, hclean'⟩ := hclean.nextToken
  have hread := peek_readBefore hclean.consistent hp
  rw [hb.peek] at hp
  have hscan := Config.scan_of_upcoming hp
  cases hend : token.isEndOfStream with
  | true =>
    obtain ⟨htoken, hinput⟩ := hread.atEnd hend
    refine Or.inl ⟨cursor.line, ?_⟩
    rw [hnext, ← htoken]
    exact ⟨rfl, took_between _ _ _, by rw [← hinput]; rfl⟩
  | false =>
    refine Or.inr ⟨token, ?_⟩
    rw [hnext]
    refine ⟨⟨hnext, hend, Config.scan_text_ne hscan hend, ?_⟩, took_between _ _ _, hclean'⟩
    exact Config.scan_consumes hscan hend

theorem Between.reachesEnd {t : Tokenizer} (hb : t.Between) (hclean : t.Clean) :
    ∃ count line, count ≤ t.cursor.input.length ∧
      (∀ k < count, ∃ token, (t.afterTokens k).Consumes (t.afterTokens (k + 1)) token) ∧
      ∀ k, count ≤ k → (t.afterTokens k).nextToken.1 = .ok (.endOfStream line) := by
  induction hn : t.cursor.input.length using Nat.strongRecOn generalizing t with
  | ind n ih =>
    rcases hb.nextToken hclean with ⟨line, hnext, hatEnd⟩ | ⟨token, hconsumes, hb', hclean'⟩
    . refine ⟨0, line, Nat.zero_le _, by simp, ?_⟩
      intro k _
      cases k with
      | zero => exact hnext
      | succ k => exact (hatEnd.afterTokens k).nextToken.1
    . obtain ⟨chars, hchars, hinput⟩ := hconsumes.consumed
      have hpos := List.length_pos_iff.2 hchars
      have hlength := congrArg List.length hinput
      rw [List.length_append, List.length_map] at hlength
      obtain ⟨count, line, hcount, hbefore, hfrom⟩ := ih _ (by omega) hb' hclean' rfl
      refine ⟨count + 1, line, by omega, ?_, ?_⟩
      . intro k hk
        cases k with
        | zero => exact ⟨token, hconsumes⟩
        | succ k => exact hbefore k (by omega)
      . intro k hk
        cases k with
        | zero => omega
        | succ k => exact hfrom k (by omega)

theorem run_nextToken_ends (config : Config) (text : String) :
    ∃ count line, count ≤ text.length ∧
      (∀ k < count, ∃ token, ((ofSource config (.ofText text)).afterTokens k).Consumes
        ((ofSource config (.ofText text)).afterTokens (k + 1)) token) ∧
      ∀ k, count ≤ k →
        ((ofSource config (.ofText text)).afterTokens k).nextToken.1 = .ok (.endOfStream line) := by
  have hlength : (ofSource config (.ofText text)).cursor.input.length = text.length := by
    simp [ofSource, Source.ofText, String.length_toList]
  rw [← hlength]
  exact Between.reachesEnd ⟨rfl, rfl⟩ (ofText_clean config text)

end Tokenizer

end TokenGrammar
