import TokenGrammar.Proofs.Token.Reprint
import TokenGrammar.Proofs.Tokenizer.Division

/-!
Printing tokens and reading them again. What is read from the texts of the tokens of a document are the same tokens on
the same lines, unless the document ends inside a string and the quote that is printed after it does not close it, or
completes what opens a comment further ahead (`Tokenizer.readAll_printed`). The quote that opens the string counts for
neither: it does not escape, even where it is the escape character.
-/

namespace TokenGrammar

def Token.chars (tokens : List Token) : List Char :=
  tokens.flatMap fun token => token.text.toList

theorem Token.chars_cons (token : Token) (tokens : List Token) :
    Token.chars (token :: tokens) = token.text.toList ++ Token.chars tokens := by
  rfl

theorem Token.chars_append (tokens tokens' : List Token) :
    Token.chars (tokens ++ tokens') = Token.chars tokens ++ Token.chars tokens' := by
  apply List.flatMap_append

theorem Token.chars_singleton (token : Token) : Token.chars [token] = token.text.toList := by
  apply List.append_nil

theorem Token.Spells.agrees {config : Config} {token : Token} {chunk rest ds : List Char} {extra : Option Char}
    (h : token.Spells config chunk) (hagrees : Text.Agrees extra rest ds) :
    Text.Agrees extra (chunk ++ rest) (token.text.toList ++ ds) := by
  by_cases hkind : token.kind = .newline
  . simp only [Token.Spells, hkind, List.mem_cons, List.not_mem_nil, or_false] at h
    obtain ⟨htext, hchunk⟩ := h
    rw [htext]
    rcases hchunk with rfl | rfl | rfl
    . exact .lineBreak _ _ rfl rfl
    . exact .lineBreak _ _ rfl rfl
    . exact .lineBreak _ _ rfl rfl
  . rw [h.text_eq hkind, String.toList_ofList]
    exact hagrees.append chunk

namespace Config

structure LeftOpen (config : Config) (chars : List Char) (line : Nat) (earlier : List Token) (quote : Char)
    (body : List Char) : Prop where
  yields : ∃ line', config.Yields ⟨chars.map .char, line⟩ earlier ⟨(quote :: body).map .char, line'⟩
  opens : config.OpensString quote
  stays : config.StaysOpen quote body

/--
Where printing what is read from a source changes it. The source ends inside a string, and the last character after
the quote that opens it is the escape character, or the quote that is printed after it completes what opens a comment,
at a place further ahead where the scan looks for that.
-/
inductive Misprints (config : Config) (chars : List Char) (line : Nat) : Prop where
  | escape {earlier : List Token} {quote escape : Char} {body : List Char} :
    config.LeftOpen chars line earlier quote (body ++ [escape]) → config.activeEscape = some escape →
      Misprints config chars line
  | opener {before later : List Token} {token : Token} {place : List Char} {line' : Nat} {quote : Char}
    {body : List Char} :
    config.Yields ⟨chars.map .char, line⟩ before ⟨place.map .char, line'⟩ →
      config.LeftOpen place line' (token :: later) quote body → config.Completes quote place token →
      Misprints config chars line

variable {config : Config} {chars : List Char} {line line' : Nat} {token : Token} {tokens : List Token}
  {cursor middle after : Cursor}

theorem not_closes_iff {body : List Char} :
    ¬config.Closes body ↔ ∃ before escape, body = before ++ [escape] ∧ config.activeEscape = some escape := by
  unfold Closes
  rw [not_or, not_not, ← ne_eq, Option.ne_none_iff_exists']
  constructor
  . rintro ⟨⟨escape, hescape⟩, hlast⟩
    rw [hescape, List.getLast?_eq_some_iff] at hlast
    obtain ⟨before, hbody⟩ := hlast
    exact ⟨before, escape, hbody, hescape⟩
  . rintro ⟨before, escape, rfl, hescape⟩
    exact ⟨⟨escape, hescape⟩, by simp [hescape]⟩

theorem LeftOpen.cons {rest : List Char} {earlier : List Token} {quote : Char} {body : List Char}
    (hlexeme : config.lexeme ⟨chars.map .char, line⟩ = (.ok token, ⟨rest.map .char, line'⟩))
    (hend : token.isEndOfStream = false) (h : config.LeftOpen rest line' earlier quote body) :
    config.LeftOpen chars line (token :: earlier) quote body := by
  obtain ⟨place, hyields⟩ := h.yields
  exact ⟨⟨place, .token hlexeme hend hyields⟩, h.opens, h.stays⟩

theorem Misprints.cons {rest : List Char}
    (hlexeme : config.lexeme ⟨chars.map .char, line⟩ = (.ok token, ⟨rest.map .char, line'⟩))
    (hend : token.isEndOfStream = false) (h : config.Misprints rest line') : config.Misprints chars line := by
  cases h with
  | escape hopen hescape => exact .escape (hopen.cons hlexeme hend) hescape
  | opener hyields hopen hcompletes => exact .opener (.token hlexeme hend hyields) hopen hcompletes

/-! Runs of scans. -/

theorem yields_nil (h : config.Yields ⟨[], line⟩ tokens after) : tokens = [] ∧ after = ⟨[], line⟩ := by
  cases h with
  | done => exact ⟨rfl, rfl⟩
  | token hlexeme hend => exact absurd rfl (input_ne_nil_of_lexeme hlexeme hend)

theorem Yields.split (h : config.Yields cursor tokens middle) {all : List Token}
    (hall : config.Yields cursor all ⟨[], line⟩) :
    ∃ later, all = tokens ++ later ∧ config.Yields middle later ⟨[], line⟩ := by
  induction h generalizing all with
  | done => exact ⟨all, rfl, hall⟩
  | token hlexeme hend _ ih =>
    cases hall with
    | done => exact absurd rfl (input_ne_nil_of_lexeme hlexeme hend)
    | token hlexeme' _ hall =>
      obtain ⟨htoken, hmiddle⟩ := Prod.mk.inj (hlexeme.symm.trans hlexeme')
      cases htoken
      cases hmiddle
      obtain ⟨later, rfl, hlater⟩ := ih hall
      exact ⟨later, rfl, hlater⟩

theorem Yields.unique {tokens' : List Token} (h : config.Yields cursor tokens ⟨[], line⟩)
    (h' : config.Yields cursor tokens' ⟨[], line'⟩) : tokens' = tokens ∧ line' = line := by
  obtain ⟨later, rfl, hlater⟩ := h.split h'
  obtain ⟨rfl, hline⟩ := yields_nil hlater
  exact ⟨by simp, (Cursor.mk.inj hline).2⟩

theorem lexeme_chars (h : config.lexeme ⟨chars.map .char, line⟩ = (.ok token, after))
    (hend : token.isEndOfStream = false) :
    ∃ chunk rest line', chars = chunk ++ rest ∧ after = ⟨rest.map .char, line'⟩ ∧
      (token.Spells config chunk ∨ token.SpellsOpen config chunk ∧ rest = []) := by
  obtain ⟨chunk, hsplit, hspells⟩ := lexeme_spells h (input_ne_nil_of_lexeme h hend)
  obtain ⟨input, line'⟩ := after
  obtain ⟨front, rest, rfl, hfront, rfl⟩ := List.map_eq_append_iff.1 hsplit
  obtain rfl := Source.chars_inj hfront
  exact ⟨front, rest, line', rfl, rfl, by simpa using hspells⟩

/-! What is printed is read again. -/

variable (hplain : ∀ c ∈ config.whitespace ++ config.delimiters, Source.isLineBreak c = false)

include hplain in
theorem lexeme_open_reprinted {quote : Char} {body : List Char} (hopens : config.OpensString quote)
    (hstays : config.StaysOpen quote body) (hcloses : config.Closes body)
    (h : config.lexeme ⟨(quote :: body).map .char, line⟩ = (.ok token, after)) :
    config.lexeme ⟨token.text.toList.map .char, line⟩ = (.ok token, after) := by
  rw [List.map_cons, lexeme_string hopens, stringLexeme_open hstays] at h
  cases h
  have hquote : quote ≠ '\n' := by
    rintro rfl
    have hfalse := isQuote_of_isLineBreak hplain (c := '\n') rfl
    simp [hopens.quote] at hfalse
  have hbreaks : Text.lineBreaks body [quote] = Text.lineBreaks body [] := by
    apply Text.lineBreaks_congr
    simp [hquote]
  rw [String.toList_ofList, List.cons_append, List.map_cons, lexeme_string hopens,
    stringLexeme_closed hstays hcloses, hbreaks]
  rfl

theorem leftOpen_of_spellsOpen (h : config.lexeme ⟨chars.map .char, line⟩ = (.ok token, after))
    (hspells : token.SpellsOpen config chars) :
    ∃ quote body, chars = quote :: body ∧ config.LeftOpen chars line [] quote body ∧
      token.text.toList = chars ++ [quote] := by
  obtain ⟨hkind, quote, ⟨body, hquote, hstays, rfl⟩, htext⟩ := hspells
  obtain ⟨quote', content, hchars, hopens⟩ := (opens_of_lexeme h).1 hkind
  obtain ⟨rfl, _⟩ : quote = quote' ∧ body.map Read.char = content := by simpa using hchars
  exact ⟨quote, body, rfl, ⟨⟨line, .done _⟩, hopens, hstays⟩, by rw [htext, String.toList_ofList]⟩

theorem agrees_open (quote : Char) (body : List Char) :
    Text.Agrees (some quote) (quote :: body) (quote :: body ++ [quote]) := by
  have hagrees : Text.Agrees (some quote) (quote :: body ++ []) (quote :: body ++ [quote]) :=
    Text.Agrees.ending.append (quote :: body)
  rwa [List.append_nil] at hagrees

include hplain in
theorem Yields.reprinted (h : config.Yields ⟨chars.map .char, line⟩ tokens ⟨[], line'⟩) :
    ∃ extra, Text.Agrees extra chars (Token.chars tokens) ∧ (chars = [] → Token.chars tokens = []) ∧
      (∀ quote, extra = some quote → ∃ earlier body, config.LeftOpen chars line earlier quote body) ∧
      (¬config.Misprints chars line → config.Yields ⟨(Token.chars tokens).map .char, line⟩ tokens ⟨[], line'⟩) := by
  generalize hcursor : (⟨chars.map .char, line⟩ : Cursor) = cursor at h
  generalize hfinal : (⟨[], line'⟩ : Cursor) = final at h
  induction h generalizing chars line with
  | done =>
    subst hfinal
    rw [Cursor.mk.injEq, List.map_eq_nil_iff] at hcursor
    obtain ⟨rfl, rfl⟩ := hcursor
    exact ⟨none, .ending, fun _ => rfl, by simp, fun _ => .done _⟩
  | @token _ _ _ token tokens hlexeme hend hyields ih =>
    subst hcursor hfinal
    obtain ⟨chunk, rest, place, rfl, rfl, hspells⟩ := lexeme_chars hlexeme hend
    have hne := input_ne_nil_of_lexeme hlexeme hend
    rcases hspells with hspells | ⟨hspells, rfl⟩
    . obtain ⟨extra, hagrees, hnil, hopen, hreads⟩ := ih rfl rfl
      refine ⟨extra, hspells.agrees hagrees, fun hnil => by simp [hnil] at hne, ?_, ?_⟩
      . intro quote hextra
        obtain ⟨earlier, body, hleft⟩ := hopen quote hextra
        exact ⟨token :: earlier, body, hleft.cons hlexeme hend⟩
      . intro hprints
        have hcompletes (quote : Char) (hextra : extra = some quote) :
            ¬config.Completes quote (chunk ++ rest) token := by
          intro hcompletes
          obtain ⟨earlier, body, hleft⟩ := hopen quote hextra
          exact hprints (.opener (.done _) (hleft.cons hlexeme hend) hcompletes)
        have hscan := lexeme_reprinted hplain hlexeme hend hspells hagrees hnil hcompletes
        exact .token hscan hend (hreads fun hmisprints => hprints (hmisprints.cons hlexeme hend))
    . obtain ⟨rfl, hplace⟩ := yields_nil hyields
      obtain rfl := (Cursor.mk.inj hplace).2
      rw [List.append_nil] at hlexeme ⊢
      obtain ⟨quote, body, rfl, hleft, htext⟩ := leftOpen_of_spellsOpen hlexeme hspells
      rw [Token.chars_singleton, htext]
      refine ⟨some quote, ?_, by simp, ?_, ?_⟩
      . apply agrees_open
      . intro _ hextra
        cases hextra
        exact ⟨[], body, hleft⟩
      . intro hprints
        have hcloses : config.Closes body := by
          by_contra hcloses
          obtain ⟨before, escape, rfl, hescape⟩ := not_closes_iff.1 hcloses
          exact hprints (.escape hleft hescape)
        have hscan := lexeme_open_reprinted hplain hleft.opens hleft.stays hcloses hlexeme
        rw [htext] at hscan
        exact .token hscan hend (.done _)

/-! A misprint is not read again. -/

theorem lexeme_aligned {ds : List Char}
    (h : config.lexeme ⟨(token.text.toList ++ ds).map .char, line⟩ = (.ok token, after))
    (hend : token.isEndOfStream = false) :
    token.Spells config token.text.toList ∧ ∃ line', after = ⟨ds.map .char, line'⟩ := by
  obtain ⟨chunk, rest, line', hsplit, rfl, hspells⟩ := lexeme_chars h hend
  rcases hspells with hspells | ⟨⟨_, quote, _, htext⟩, rfl⟩
  . have hchunk : chunk = token.text.toList := by
      by_cases hkind : token.kind = .newline
      . simp only [Token.Spells, hkind, List.mem_cons, List.not_mem_nil, or_false] at hspells
        obtain ⟨htext, hchunk⟩ := hspells
        rw [htext] at hsplit ⊢
        rcases hchunk with rfl | rfl | rfl
        . rfl
        . simp at hsplit
        . simp at hsplit
      . rw [hspells.text_eq hkind, String.toList_ofList]
    subst hchunk
    rw [List.append_cancel_left_eq] at hsplit
    exact ⟨hspells, line', by rw [hsplit]⟩
  . have hlength := congrArg List.length hsplit
    rw [htext, String.toList_ofList] at hlength
    simp at hlength

theorem Yields.aligned {earlier later : List Token}
    (h : config.Yields ⟨(Token.chars (earlier ++ later)).map .char, line⟩ (earlier ++ later) after) :
    ∃ line', config.Yields ⟨(Token.chars later).map .char, line'⟩ later after := by
  induction earlier generalizing line with
  | nil => exact ⟨line, h⟩
  | cons token earlier ih =>
    cases h with
    | token hlexeme hend hyields =>
      obtain ⟨_, place, rfl⟩ := lexeme_aligned hlexeme hend
      exact ih hyields

theorem Yields.agrees {rest ds : List Char} {extra : Option Char}
    (h : config.Yields ⟨chars.map .char, line⟩ tokens ⟨rest.map .char, line'⟩) (hne : rest ≠ [])
    (hagrees : Text.Agrees extra rest ds) : Text.Agrees extra chars (Token.chars tokens ++ ds) := by
  generalize hcursor : (⟨chars.map .char, line⟩ : Cursor) = cursor at h
  generalize hfinal : (⟨rest.map .char, line'⟩ : Cursor) = final at h
  induction h generalizing chars line with
  | done =>
    rw [← hfinal, Cursor.mk.injEq] at hcursor
    rw [Source.chars_inj hcursor.1]
    exact hagrees
  | token hlexeme hend hyields ih =>
    subst hcursor hfinal
    obtain ⟨chunk, middle, place, rfl, rfl, hspells⟩ := lexeme_chars hlexeme hend
    rcases hspells with hspells | ⟨_, rfl⟩
    . rw [Token.chars_cons, List.append_assoc]
      exact hspells.agrees (ih rfl rfl)
    . obtain ⟨_, hfinal⟩ := yields_nil hyields
      simp [hne] at hfinal

include hplain in
theorem begins_printed {quote : Char} {chunk rest ds : List Char}
    (hagrees : Text.Agrees (some quote) rest ds) {n : Nat} (hn : n ≤ chunk.length) {style : CommentStyle}
    (hmem : ((chunk ++ rest).drop n ++ [quote], style) ∈ config.openers) :
    ((chunk ++ rest).drop n ++ [quote]).map Read.char <+: ((chunk ++ ds).map Read.char).drop n := by
  have hprinted := (hagrees.append (chunk.drop n)).eq_of_plain fun c hc => by
    apply opener_plain hplain hmem
    rw [List.drop_append_of_le_length hn]
    exact List.mem_append_left _ hc
  rw [← List.map_drop, List.drop_append_of_le_length hn, List.drop_append_of_le_length hn, hprinted]
  apply List.prefix_refl

include hplain in
theorem Completes.not_reprinted {quote : Char} {chunk rest ds : List Char}
    (hcompletes : config.Completes quote (chunk ++ rest) token)
    (h : config.lexeme ⟨(chunk ++ rest).map .char, line⟩ = (.ok token, after)) (hend : token.isEndOfStream = false)
    (hspells : token.Spells config chunk) (hagrees : Text.Agrees (some quote) rest ds) :
    config.lexeme ⟨(token.text.toList ++ ds).map .char, line'⟩ ≠ (.ok token, middle) := by
  intro h'
  obtain ⟨category, _, hcut⟩ := lexeme_cut h (input_ne_nil_of_lexeme h hend)
  obtain ⟨category', chunk', hcut'⟩ := lexeme_cut h' (input_ne_nil_of_lexeme h' hend)
  obtain ⟨_, place, rfl⟩ := lexeme_aligned h' hend
  have hchunk : chunk' = token.text.toList := by
    have hsplit := hcut'.split
    rw [List.map_append] at hsplit
    exact Source.chars_eq hsplit.symm
  have hkind := hcut.kind.symm.trans hcut'.kind
  have htext (hnewline : token.kind ≠ .newline) : token.text.toList = chunk := by
    rw [hspells.text_eq hnewline, String.toList_ofList]
  cases hcompletes with
  | word n style hfirst hlt hmem =>
    obtain rfl : category = .word := Option.some.inj (hcut.first.symm.trans hfirst)
    have htext := htext (by simp [hcut.kind, Category.kind])
    rw [htext] at hchunk hcut'
    rw [← String.length_toList, htext] at hlt
    subst hchunk
    cases category' with
    | word => exact hcut'.not_opens hlt hmem (begins_printed hplain hagrees (Nat.le_of_lt hlt) hmem)
    | number =>
      have hdigit := List.find?_some hcut'.first
      have hno := Category.not_fits_of_first hfirst .number (by decide)
      cases chunk' with
      | nil => simp at hlt
      | cons c tail => exact Bool.false_ne_true (hno.symm.trans hdigit)
    | whitespace | string | newline | lineComment | blockComment => simp [Category.kind] at hkind
  | blockComment hfirst hmem =>
    obtain rfl : category = .blockComment := Option.some.inj (hcut.first.symm.trans hfirst)
    have htext := htext (by simp [hcut.kind, Category.kind])
    rw [htext] at hcut'
    cases category' with
    | blockComment => exact hcut'.not_opensLine hmem (begins_printed hplain hagrees (Nat.zero_le _) hmem)
    | number =>
      simp only [Category.kind] at hkind
      split at hkind <;> simp at hkind
    | whitespace | string | newline | lineComment | word => simp [Category.kind] at hkind

theorem yields_open {quote : Char} {body : List Char} (hopens : config.OpensString quote)
    (hstays : config.StaysOpen quote body)
    (h : config.Yields ⟨(quote :: body).map .char, line⟩ tokens ⟨[], line'⟩) :
    ∃ token, tokens = [token] ∧ token.kind = .string ∧ token.text.toList = quote :: body ++ [quote] := by
  generalize hfinal : (⟨[], line'⟩ : Cursor) = final at h
  cases h with
  | done => simp at hfinal
  | token hlexeme _ hyields =>
    rw [List.map_cons, lexeme_string hopens, stringLexeme_open hstays] at hlexeme
    cases hlexeme
    obtain ⟨rfl, _⟩ := yields_nil hyields
    exact ⟨_, rfl, rfl, by rw [String.toList_ofList]⟩

include hplain in
theorem Misprints.not_reprinted (h : config.Misprints chars line)
    (hall : config.Yields ⟨chars.map .char, line⟩ tokens ⟨[], line'⟩) :
    ¬config.Yields ⟨(Token.chars tokens).map .char, line⟩ tokens after := by
  intro hprinted
  cases h with
  | @escape earlier quote escape body hleft hescape =>
    have hcloses := not_closes_iff.2 ⟨body, escape, rfl, hescape⟩
    obtain ⟨place, hyields⟩ := hleft.yields
    obtain ⟨later, rfl, hlater⟩ := hyields.split hall
    obtain ⟨token, rfl, hkind, htext⟩ := yields_open hleft.opens hleft.stays hlater
    obtain ⟨_, hlast⟩ := hprinted.aligned
    cases hlast with
    | token hlexeme hend =>
      have hspells := (lexeme_aligned hlexeme hend).1
      simp only [Token.Spells, hkind, htext] at hspells
      obtain ⟨_, quote', body', _, _, hcloses', hchunk⟩ := hspells
      rw [List.cons_append, List.cons_append, List.cons.injEq] at hchunk
      obtain ⟨rfl, hbody⟩ := hchunk
      rw [List.append_cancel_right hbody] at hcloses
      exact hcloses hcloses'
  | @opener before later token place line'' quote body hbefore hleft hcompletes =>
    obtain ⟨all, rfl, hrest⟩ := hbefore.split hall
    obtain ⟨_, hyields⟩ := hleft.yields
    obtain ⟨last, rfl, hlast⟩ := hyields.split hrest
    obtain ⟨string, rfl, _, htext⟩ := yields_open hleft.opens hleft.stays hlast
    obtain ⟨_, hprinted⟩ := hprinted.aligned
    cases hyields with
    | token hlexeme hend hlater =>
      obtain ⟨chunk, rest, _, rfl, rfl, hspells⟩ := lexeme_chars hlexeme hend
      rcases hspells with hspells | ⟨_, rfl⟩
      . have hagrees := hlater.agrees (by simp) (agrees_open quote body)
        rw [← htext, ← Token.chars_singleton, ← Token.chars_append] at hagrees
        cases hprinted with
        | token hlexeme' _ _ => exact hcompletes.not_reprinted hplain hlexeme hend hspells hagrees hlexeme'
      . obtain ⟨_, hfinal⟩ := yields_nil hlater
        simp at hfinal

end Config

namespace Tokenizer

theorem readAll_text {config : Config} (hw : config.ignoreWhitespace = false) (hc : config.ignoreComments = false)
    (text : String) :
    ∃ tokens line, config.Yields ⟨text.toList.map .char, 1⟩ tokens ⟨[], line⟩ ∧
      (ofSource config (.ofText text)).readAll.tokens = tokens ++ [.endOfStream line] := by
  have hbetween : (ofSource config (.ofText text)).Between := ⟨rfl, rfl⟩
  obtain ⟨tokens, ⟨input, line⟩, hyields, hends⟩ := hbetween.readAll_yields hw hc
  rcases hends with ⟨hinput, _, htokens⟩ | ⟨error, place, hfault, _, _⟩
  . dsimp only at hinput
    subst hinput
    exact ⟨tokens, line, hyields, htokens⟩
  . have hexact := config.lexeme_exact ⟨input, line⟩
    rw [show config.lexeme ⟨input, line⟩ = (.error error, place) from hfault] at hexact
    have hmem := (hyields.readsTo.trans hexact).suffix.subset (List.mem_cons_self ..)
    simp [ofSource, Source.ofText] at hmem

/--
Reading what the tokens of a text are printed as gives the same tokens, unless the text is left open in a string that
has a character after the quote that opens it, the last of which is the escape character, or unless the quote after it
completes what opens a comment.
-/
theorem readAll_printed {config : Config} (hw : config.ignoreWhitespace = false)
    (hc : config.ignoreComments = false)
    (hplain : ∀ c ∈ config.whitespace ++ config.delimiters, Source.isLineBreak c = false) (text : String) :
    let tokens := (ofSource config (.ofText text)).readAll.tokens
    (ofSource config (.ofText (String.ofList (Token.chars tokens)))).readAll.tokens = tokens ↔
      ¬config.Misprints text.toList 1 := by
  intro tokens
  obtain ⟨found, line, hyields, htokens⟩ := readAll_text hw hc text
  have hchars : Token.chars tokens = Token.chars found := by
    rw [show tokens = _ from htokens, Token.chars_append]
    apply List.append_nil
  obtain ⟨found', line', hyields', htokens'⟩ := readAll_text hw hc (String.ofList (Token.chars tokens))
  rw [String.toList_ofList, hchars] at hyields'
  rw [htokens', show tokens = _ from htokens]
  constructor
  . intro heq hmisprints
    obtain ⟨rfl, _⟩ := List.append_inj' heq rfl
    exact hmisprints.not_reprinted hplain hyields hyields'
  . intro hprints
    obtain ⟨_, _, _, _, hreads⟩ := hyields.reprinted hplain
    obtain ⟨rfl, rfl⟩ := (hreads hprints).unique hyields'
    rfl

def quotedOpener : Config :=
  { ignoreWhitespace := false, lineComment := some "#\"\"", ignoreComments := false }

theorem quotedOpener_plain :
    ∀ c ∈ quotedOpener.whitespace ++ quotedOpener.delimiters, Source.isLineBreak c = false := by
  rw [show quotedOpener.whitespace ++ quotedOpener.delimiters = [' ', '\t', '"', '#', '"', '"'] from rfl]
  simp [Source.isLineBreak]

theorem readAll_printed_quotedOpener :
    quotedOpener.ignoreWhitespace = false ∧ quotedOpener.ignoreComments = false ∧
      (∀ c ∈ quotedOpener.whitespace ++ quotedOpener.delimiters, Source.isLineBreak c = false) ∧
      ¬quotedOpener.Misprints "#\r\n\"\r".toList 1 ∧ quotedOpener.Misprints "#\"".toList 1 := by
  refine ⟨rfl, rfl, quotedOpener_plain, ?_, ?_⟩
  . exact (readAll_printed rfl rfl quotedOpener_plain _).1 (by decide +kernel)
  . by_contra hprints
    exact absurd ((readAll_printed rfl rfl quotedOpener_plain _).2 hprints) (by decide +kernel)

theorem readAll_tokens_ne_quotedOpener :
    quotedOpener.ignoreWhitespace = false ∧ quotedOpener.ignoreComments = false ∧
      (∀ c ∈ quotedOpener.whitespace ++ quotedOpener.delimiters, Source.isLineBreak c = false) ∧
      "#\"".toList.getLast? ≠ quotedOpener.activeEscape ∧
      (ofSource quotedOpener (.ofText "#\"")).readAll.tokens =
        [{ kind := .word, text := "#", line := 1 }, { kind := .string, text := "\"\"", line := 1 }, .endOfStream 1] ∧
      (ofSource quotedOpener (.ofText (String.ofList (Token.chars
          (ofSource quotedOpener (.ofText "#\"")).readAll.tokens)))).readAll.tokens =
        [{ kind := .lineComment, text := "#\"\"", line := 1 }, .endOfStream 1] := by
  exact ⟨rfl, rfl, quotedOpener_plain, by decide, by decide +kernel, by decide +kernel⟩

-- The quote that opens a string does not escape the quote that is printed after it.
example :
    let config : Config := { ignoreWhitespace := false, ignoreComments := false, quotes := ['|'], escape := some '|' }
    (ofSource config (.ofText "a ||")).readAll.tokens = (ofSource config (.ofText "a |")).readAll.tokens := by
  decide +kernel

end Tokenizer

end TokenGrammar
