import TokenGrammar.Proofs.Token.Lines
import TokenGrammar.Proofs.Tokenizer.Delivery

/-!
The lines of tokens are true: whatever was read and put back before, the next token carries the line on which
its first character stands (`Tokenizer.run_nextToken_line`). The line of a place is fixed by what stands on
both sides of it, as a carriage return ends a line only if no line feed comes next. So what is kept along a
run is not a number but where the cursor and the last token stand in the text.
-/

namespace TokenGrammar

def Cursor.Within (text : List Char) (cursor : Cursor) : Prop :=
  ∃ before after, text = before ++ after ∧
    cursor = ⟨after.map .char, 1 + Text.lineBreaks before after⟩

structure Token.Stands (config : Config) (token : Token) (before chunk after : List Char) : Prop where
  line : token.line = 1 + Text.lineBreaks before (chunk ++ after)
  spelled : token.isEndOfStream = true ∧ chunk = [] ∧ after = [] ∨
    token.isEndOfStream = false ∧ chunk ≠ [] ∧
      (token.Spells config chunk ∨ token.SpellsOpen config chunk ∧ after = [])
  word : token.kind = .word → ∀ c ∈ chunk, Source.isLineBreak c = false

def Token.StandsBefore (config : Config) (text : List Char) (token : Token) (cursor : Cursor) : Prop :=
  ∃ before chunk after, text = before ++ chunk ++ after ∧ cursor.input = after.map .char ∧
    token.Stands config before chunk after

theorem Scan.Lined.within {before chunk rest : List Char} {line : Nat} {token : Token} {after : Cursor}
    (h : Lined ((chunk ++ rest).map .char) line token after chunk)
    (hline : line = 1 + Text.lineBreaks before (chunk ++ rest)) (hafter : after.input = rest.map .char) :
    after.Within (before ++ (chunk ++ rest)) := by
  refine ⟨before ++ chunk, rest, by simp, ?_⟩
  have hbreaks : Source.lineBreaks chunk.length ((chunk ++ rest).map .char) = Text.lineBreaks chunk rest := by
    simpa using Source.lineBreaks_text chunk (Or.inr rfl : rest ≠ [] ∨ ([] : Source) = [])
  have hgrowth := h.growth
  rw [hbreaks, hline] at hgrowth
  rw [Text.lineBreaks_append, ← Nat.add_assoc, ← hgrowth, ← hafter]

namespace Config

variable {config : Config} {text : List Char} {cursor after : Cursor} {token : Token}

theorem lexeme_standsBefore (hplain : ∀ c ∈ config.delimiters, Source.isLineBreak c = false)
    (hwithin : cursor.Within text) (h : config.lexeme cursor = (.ok token, after)) :
    token.StandsBefore config text after ∧ after.Within text := by
  obtain ⟨before, rest, rfl, rfl⟩ := hwithin
  by_cases hne : rest = []
  . rw [hne] at h ⊢
    cases h
    exact ⟨⟨before, [], [], by simp, rfl, rfl, Or.inl ⟨rfl, rfl, rfl⟩, by simp⟩, before, [], rfl, rfl⟩
  . have hinput : (⟨rest.map .char, 1 + Text.lineBreaks before rest⟩ : Cursor).input ≠ [] := by simpa using hne
    -- What the token spells and what was counted for it are the same characters.
    obtain ⟨chunk, hsplit, hspells⟩ := lexeme_spells h hinput
    obtain ⟨_, hsplit', hlined⟩ := lexeme_lined hplain h
    obtain rfl := Source.chars_eq (hsplit'.symm.trans hsplit)
    have hlt := config.lexeme_length_lt hinput
    rw [h] at hlt
    obtain ⟨front, rest, rfl, hfront, hafter⟩ := List.map_eq_append_iff.1 hsplit
    obtain rfl := (List.map_inj_right fun _ _ => Read.char.inj).1 hfront
    have hchunk : front ≠ [] := by
      rintro rfl
      simp [← hafter] at hlt
    refine ⟨⟨before, front, rest, by simp, hafter.symm, hlined.start, ?_, hlined.word⟩,
      hlined.within rfl hafter.symm⟩
    refine Or.inr ⟨(lexeme_found h hinput).notEnd, hchunk, ?_⟩
    simpa [← hafter] using hspells

theorem scan_standsBefore (hplain : ∀ c ∈ config.delimiters, Source.isLineBreak c = false)
    (hwithin : cursor.Within text) (h : config.scan cursor = (.ok token, after)) :
    token.StandsBefore config text after ∧ after.Within text := by
  fun_induction config.scan cursor with
  | case1 cursor ignored next hlexeme hi hlt ih => exact ih (lexeme_standsBefore hplain hwithin hlexeme).2 h
  | case2 cursor token' next hlexeme hi =>
    cases h
    exact lexeme_standsBefore hplain hwithin hlexeme
  | case3 => simp at h

theorem upcoming_standsBefore (hplain : ∀ c ∈ config.delimiters, Source.isLineBreak c = false)
    (hwithin : cursor.Within text) (h : config.upcoming cursor = (.ok token, after)) :
    token.StandsBefore config text after ∧ after.Within text := by
  unfold upcoming at h
  split at h
  . next heq =>
    cases h
    exact scan_standsBefore hplain hwithin heq
  . simp at h

end Config

theorem ActiveWord.Reads.remainder_standsBefore {config : Config} {text : List Char} {word : ActiveWord}
    {token : Token} {cursor : Cursor} (h : word.Reads token) (he : word.isExhausted = false)
    (hstands : token.StandsBefore config text cursor) :
    word.remainder.StandsBefore config text cursor := by
  obtain ⟨before, chunk, after, rfl, hcursor, hstands⟩ := hstands
  have hspells : token.text = String.ofList chunk := by
    rcases hstands.spelled with ⟨hend, _⟩ | ⟨_, _, hspells | ⟨hstring, _⟩⟩
    . simp [Token.isEndOfStream, h.kind] at hend
    . simpa [Token.Spells, h.kind] using hspells
    . simp [Token.SpellsOpen, h.kind] at hstring
  have hchars : word.chars.toList = chunk := by rw [← h.chars, hspells, String.toList_ofList]
  have hplain := hstands.word h.kind
  have htake : ∀ c ∈ chunk.take word.pos, Source.isLineBreak c = false :=
    fun c hc => hplain c (List.mem_of_mem_take hc)
  refine ⟨before ++ chunk.take word.pos, chunk.drop word.pos, after, by simp, hcursor, ?_, ?_, ?_⟩
  . rw [Text.lineBreaks_append, Text.lineBreaks_eq_zero htake, Nat.add_zero, ← List.append_assoc,
      List.take_append_drop, ← hstands.line, h.line]
    rfl
  . refine Or.inr ⟨rfl, ?_, Or.inl ?_⟩
    . simpa [ActiveWord.isExhausted, ← hchars] using he
    . simp [Token.Spells, ActiveWord.remainder, hchars]
  . intro _ c hc
    exact hplain c (List.mem_of_mem_drop hc)

namespace Tokenizer

structure Placed (config : Config) (text : List Char) (t : Tokenizer) : Prop where
  settings : t.config = config
  clean : t.Clean
  cursor : t.cursor.Within text
  last : ∀ token, t.last = some token → token.StandsBefore config text t.cursor

namespace Placed

variable {config : Config} {text : List Char} {t t' : Tokenizer}

theorem start (config : Config) (text : String) :
    Placed config text.toList (ofSource config (.ofText text)) := by
  refine ⟨rfl, ofText_clean config text, ⟨[], text.toList, rfl, rfl⟩, ?_⟩
  simp [ofSource]

theorem peek (hplain : ∀ c ∈ config.delimiters, Source.isLineBreak c = false) (h : t.Placed config text)
    {token : Token} {cursor : Cursor} (hp : t.peek = (.ok token, cursor)) :
    token.StandsBefore config text cursor ∧ cursor.Within text := by
  have hconsistent := h.clean.consistent
  unfold Tokenizer.peek at hp
  rw [h.settings] at hp
  split at hp
  . next hr =>
    obtain ⟨_, last, hl⟩ := hconsistent.replay hr
    rw [hl] at hp
    cases hp
    exact ⟨h.last _ hl, h.cursor⟩
  . split at hp
    . exact Config.upcoming_standsBefore hplain h.cursor hp
    . next word hw =>
      split at hp
      . exact Config.upcoming_standsBefore hplain h.cursor hp
      . next he =>
        cases hp
        obtain ⟨last, hl, hreads⟩ := hconsistent.word word hw
        exact ⟨hreads.remainder_standsBefore (by simpa using he) (h.last last hl), h.cursor⟩

theorem of_peek (hplain : ∀ c ∈ config.delimiters, Source.isLineBreak c = false) (h : t.Placed config text)
    {token : Token} {cursor : Cursor} (hp : t.peek = (.ok token, cursor)) (hclean : t'.Clean)
    (hsettings : t'.config = t.config) (hcursor : t'.cursor = cursor) (hlast : t'.last = some token) :
    t'.Placed config text := by
  obtain ⟨hstands, hwithin⟩ := h.peek hplain hp
  rw [← hcursor] at hstands hwithin
  refine ⟨hsettings.trans h.settings, hclean, hwithin, ?_⟩
  intro last hl
  rw [hlast] at hl
  cases hl
  exact hstands

theorem of_same (h : t.Placed config text) (hclean : t'.Clean) (hsettings : t'.config = t.config)
    (hcursor : t'.cursor = t.cursor) (hlast : t'.last = t.last) : t'.Placed config text := by
  refine ⟨hsettings.trans h.settings, hclean, ?_, ?_⟩
  . rw [hcursor]
    exact h.cursor
  . rw [hcursor, hlast]
    exact h.last

end Placed

theorem pushBack_kept (t : Tokenizer) : t.pushBack.2.config = t.config ∧ t.pushBack.2.last = t.last := by
  unfold pushBack
  split
  . exact ⟨rfl, rfl⟩
  . split <;> exact ⟨rfl, rfl⟩

theorem pushBackWordChar_kept (t : Tokenizer) :
    t.pushBackWordChar.2.config = t.config ∧ t.pushBackWordChar.2.last = t.last := by
  unfold pushBackWordChar
  dsimp only
  split
  . exact ⟨rfl, rfl⟩
  . exact ⟨rfl, rfl⟩
  . exact pushBack_kept _
  . exact ⟨rfl, rfl⟩
  . exact ⟨rfl, rfl⟩

theorem Placed.perform {config : Config} {text : List Char} {t : Tokenizer}
    (hplain : ∀ c ∈ config.delimiters, Source.isLineBreak c = false) (h : t.Placed config text)
    (operation : Operation) : (t.perform operation).Placed config text := by
  have hclean := h.clean.perform operation
  cases operation with
  | nextToken =>
    obtain ⟨token, cursor, hp, hnext, _⟩ := h.clean.nextToken
    simp only [Tokenizer.perform, hnext] at hclean ⊢
    exact h.of_peek hplain hp hclean rfl rfl rfl
  | pushBack => exact h.of_same hclean (pushBack_kept t).1 (pushBack_cursor t) (pushBack_kept t).2
  | nextWordChar =>
    obtain ⟨read, t', hnext, hread⟩ := h.clean.nextWordChar
    simp only [Tokenizer.perform, hnext] at hclean ⊢
    cases hread with
    | atEnd => exact h.of_same hclean rfl rfl rfl
    | inside => exact h.of_same hclean rfl rfl rfl
    | entered hs hp => exact h.of_peek hplain hp hclean rfl rfl rfl
    | refused hp => exact h.of_peek hplain hp hclean rfl rfl rfl
  | pushBackWordChar =>
    exact h.of_same hclean (pushBackWordChar_kept t).1 (pushBackWordChar_cursor t) (pushBackWordChar_kept t).2

theorem Placed.run {config : Config} {text : List Char} {t : Tokenizer}
    (hplain : ∀ c ∈ config.delimiters, Source.isLineBreak c = false) (h : t.Placed config text)
    (operations : List Operation) : (t.run operations).Placed config text := by
  induction operations generalizing t with
  | nil => exact h
  | cons operation operations ih => exact ih (h.perform hplain operation)

theorem run_nextToken_line {config : Config}
    (hplain : ∀ c ∈ config.delimiters, Source.isLineBreak c = false) (text : String)
    (operations : List Operation) :
    ∃ token t' before chunk after,
      ((ofSource config (.ofText text)).run operations).nextToken = (.ok token, t') ∧
      text.toList = before ++ chunk ++ after ∧ t'.cursor.input = after.map .char ∧
      (token.isEndOfStream = true ∧ chunk = [] ∧ after = [] ∨
        token.isEndOfStream = false ∧ chunk ≠ [] ∧
          (token.Spells config chunk ∨ token.SpellsOpen config chunk ∧ after = [])) ∧
      token.line = 1 + before.count '\n' + Text.loneReturns before (chunk ++ after) := by
  have h := (Placed.start config text).run hplain operations
  obtain ⟨token, cursor, hp, hnext, _⟩ := h.clean.nextToken
  obtain ⟨⟨before, chunk, after, htext, hcursor, hstands⟩, _⟩ := h.peek hplain hp
  refine ⟨token, _, before, chunk, after, hnext, htext, hcursor, hstands.spelled, ?_⟩
  rw [hstands.line, Text.lineBreaks, Nat.add_assoc]

-- Carriage returns are whitespace and line feeds are not, so that a pair of them goes to different scans.
def blankReturns : Config :=
  { whitespace := [' ', '\r'], lineComment := some "#", blockComment := some ("/*", "*/") }

def brokenLines : String :=
  "ab\r\n/*\r\n\r*/ \"c\nd\" e"

def retraced : List Operation :=
  [.nextWordChar, .nextWordChar, .pushBackWordChar, .nextToken, .nextToken, .nextToken, .pushBack]

theorem run_nextToken_line_brokenLines :
    (∀ c ∈ blankReturns.delimiters, Source.isLineBreak c = false) ∧
    ∃ token t' before chunk after,
      ((ofSource blankReturns (.ofText brokenLines)).run retraced).nextToken = (.ok token, t') ∧
      brokenLines.toList = before ++ chunk ++ after ∧ t'.cursor.input = after.map .char ∧
      (token.isEndOfStream = true ∧ chunk = [] ∧ after = [] ∨
        token.isEndOfStream = false ∧ chunk ≠ [] ∧
          (token.Spells blankReturns chunk ∨ token.SpellsOpen blankReturns chunk ∧ after = [])) ∧
      token.line = 1 + before.count '\n' + Text.loneReturns before (chunk ++ after) := by
  have hplain : ∀ c ∈ blankReturns.delimiters, Source.isLineBreak c = false := by
    rw [show blankReturns.delimiters = ['"', '#', '/', '*', '*', '/'] from rfl]
    simp [Source.isLineBreak]
  exact ⟨hplain, run_nextToken_line hplain brokenLines retraced⟩

example : ((ofSource blankReturns (.ofText brokenLines)).run retraced).nextToken.1 =
    .ok { kind := .string, text := "\"c\nd\"", line := 4 } := by
  decide +kernel

end Tokenizer

end TokenGrammar
