import TokenGrammar.Proofs.Tokenizer.Delivery

/-!
How the tokens of a text spell it out. If nothing is left out, the text is cut into chunks, one for each
token, and the text of a token is its chunk, but for line breaks, which are all written in one way, and
for a string that the end of the text leaves open (`Tokenizer.readAll_spelled`).
-/

namespace TokenGrammar

namespace Config

def Closes (config : Config) (body : List Char) : Prop :=
  config.activeEscape = none ∨ body.getLast? ≠ config.activeEscape

def StaysOpen (config : Config) (quote : Char) (body : List Char) : Prop :=
  ∀ before after, body = before ++ quote :: after → ¬config.Closes before

def ClosedString (config : Config) (chunk : List Char) : Prop :=
  ∃ quote body, config.isQuote quote ∧ config.StaysOpen quote body ∧ config.Closes body ∧
    chunk = quote :: body ++ [quote]

def OpenString (config : Config) (quote : Char) (chunk : List Char) : Prop :=
  ∃ body, config.isQuote quote ∧ config.StaysOpen quote body ∧ chunk = quote :: body

end Config

def Token.Spells (config : Config) (token : Token) (chunk : List Char) : Prop :=
  match token.kind with
  | .newline => token.text = "\n" ∧ chunk ∈ [['\n'], ['\r', '\n'], ['\r']]
  | .string => token.text = String.ofList chunk ∧ config.ClosedString chunk
  | .endOfStream => False
  | _ => token.text = String.ofList chunk

theorem Token.Spells.text_eq {config : Config} {token : Token} {chunk : List Char} (h : token.Spells config chunk)
    (hkind : token.kind ≠ .newline) : token.text = String.ofList chunk := by
  unfold Token.Spells at h
  split at h
  . next hnewline => exact absurd hnewline hkind
  . exact h.1
  . contradiction
  . exact h

def Token.SpellsOpen (config : Config) (token : Token) (chunk : List Char) : Prop :=
  token.kind = .string ∧
    ∃ quote, config.OpenString quote chunk ∧ token.text = String.ofList (chunk ++ [quote])

/-- The tokens are what becomes of the chunks, one for one. Only the last may be an open string. -/
inductive Config.Spelled (config : Config) : List Token → List (List Char) → Prop where
  | nil : Spelled config [] []
  | cons {token : Token} {tokens : List Token} {chunk : List Char} {chunks : List (List Char)}
    (hne : chunk ≠ []) (hs : token.Spells config chunk) (ht : Spelled config tokens chunks) :
    Spelled config (token :: tokens) (chunk :: chunks)
  | openString {token : Token} {chunk : List Char} (hs : token.SpellsOpen config chunk) :
    Spelled config [token] [chunk]

namespace Config

theorem StaysOpen.snoc {config : Config} {quote : Char} {body : List Char}
    (h : config.StaysOpen quote body) {c : Char} (hc : c = quote → ¬config.Closes body) :
    config.StaysOpen quote (body ++ [c]) := by
  intro before after heq
  cases after using List.reverseRecOn with
  | nil =>
    obtain ⟨hbefore, hquote⟩ := List.append_inj' heq rfl
    rw [← hbefore]
    exact hc (by simpa using hquote)
  | append_singleton after d =>
    rw [← List.cons_append, ← List.append_assoc] at heq
    exact h before after (List.append_inj' heq rfl).1

-- The body of a string goes on as long as no quote closes the string. The characters in front of the source,
-- newest first, are the part of the body that has been read.
theorem stringBody_go_split {config : Config} {quote : Char} (taken : List Char)
    (ht : config.StaysOpen quote taken.reverse) (input : Source) {body : List Char} {rest : Source}
    (h : stringBody.go quote config.activeEscape taken.head? taken input = (body, rest)) :
    taken.reverse.map .char ++ input = body.map .char ++ rest ∧ config.StaysOpen quote body ∧
      ∀ c after, rest = .char c :: after → c = quote ∧ config.Closes body := by
  induction input generalizing taken with
  | nil =>
    simp only [stringBody.go, Prod.mk.injEq] at h
    obtain ⟨rfl, rfl⟩ := h
    exact ⟨rfl, ht, by simp⟩
  | cons read input ih =>
    cases read with
    | fault error =>
      simp only [stringBody.go, Prod.mk.injEq] at h
      obtain ⟨rfl, rfl⟩ := h
      exact ⟨rfl, ht, by simp⟩
    | char c =>
      unfold stringBody.go at h
      split at h
      . next hclose =>
        simp only [Prod.mk.injEq] at h
        obtain ⟨rfl, rfl⟩ := h
        refine ⟨rfl, ht, ?_⟩
        intro d after heq
        simp only [List.cons.injEq, Read.char.injEq] at heq
        rw [← heq.1]
        simpa [Closes] using hclose
      . next hopen =>
        have hsnoc : config.StaysOpen quote (c :: taken).reverse := by
          rw [List.reverse_cons]
          apply ht.snoc
          intro hc
          simpa [Closes, hc] using hopen
        obtain ⟨hsplit, hrest⟩ := ih (c :: taken) hsnoc h
        refine ⟨?_, hrest⟩
        simpa using hsplit

theorem stringLexeme_spells {config : Config} {quote : Char} (hq : config.isQuote quote)
    {content : Source} {line : Nat} {token : Token} {after : Cursor}
    (h : config.stringLexeme quote content line = (.ok token, after)) :
    ∃ chunk, .char quote :: content = chunk.map .char ++ after.input ∧
      (token.Spells config chunk ∨ token.SpellsOpen config chunk ∧ after.input = []) := by
  obtain ⟨body, rest, hbody⟩ : ∃ body rest, stringBody quote config.activeEscape content = (body, rest) :=
    ⟨_, _, rfl⟩
  have hnil : config.StaysOpen quote [] := by simp [StaysOpen]
  obtain ⟨hsplit, hopen, hclose⟩ := stringBody_go_split [] hnil content hbody
  simp only [List.reverse_nil, List.map_nil, List.nil_append] at hsplit
  simp only [stringLexeme, hbody] at h
  split at h
  . simp only [Prod.mk.injEq, Except.ok.injEq] at h
    obtain ⟨rfl, rfl⟩ := h
    refine ⟨quote :: body, ?_, Or.inr ⟨⟨rfl, quote, ⟨body, hq, hopen, rfl⟩, rfl⟩, rfl⟩⟩
    rw [hsplit]
    rfl
  . next c rest =>
    obtain ⟨rfl, hcloses⟩ := hclose c rest rfl
    simp only [Prod.mk.injEq, Except.ok.injEq] at h
    obtain ⟨rfl, rfl⟩ := h
    refine ⟨c :: body ++ [c], ?_, Or.inl ⟨rfl, c, body, hq, hopen, hcloses, rfl⟩⟩
    rw [hsplit]
    simp
  . simp at h

theorem newlineLexeme_spells {config : Config} {c : Char} (hc : Source.isLineBreak c) {rest : Source}
    {line : Nat} {token : Token} {after : Cursor}
    (h : newlineLexeme c rest line = (.ok token, after)) :
    ∃ chunk, .char c :: rest = chunk.map .char ++ after.input ∧ token.Spells config chunk := by
  unfold newlineLexeme at h
  dsimp only at h
  split at h
  . next hcr =>
    split at h
    . next rest =>
      simp only [Prod.mk.injEq, Except.ok.injEq] at h
      obtain ⟨rfl, rfl⟩ := h
      exact ⟨['\r', '\n'], by simp [hcr], rfl, by simp⟩
    . simp at h
    . simp only [Prod.mk.injEq, Except.ok.injEq] at h
      obtain ⟨rfl, rfl⟩ := h
      exact ⟨['\r'], by simp [hcr], rfl, by simp⟩
  . next hcr =>
    simp only [Prod.mk.injEq, Except.ok.injEq] at h
    obtain ⟨rfl, rfl⟩ := h
    have hlf : c = '\n' := by simpa [Source.isLineBreak, hcr] using hc
    exact ⟨['\n'], by simp [hlf], rfl, by simp⟩

theorem commentLexeme_spells (config : Config) {opener : List Char} {style : CommentStyle}
    {body : Source} {line : Nat} {token : Token} {after : Cursor}
    (h : commentLexeme opener style body line = (.ok token, after)) :
    ∃ chunk, opener.map .char ++ body = chunk.map .char ++ after.input ∧ token.Spells config chunk := by
  cases style with
  | line =>
    obtain ⟨rfl, hafter⟩ := Scan.finish_ok h
    refine ⟨_, ?_, rfl⟩
    rw [hafter, List.map_append, List.append_assoc, List.append_cancel_left_eq]
    exact Source.takeRun_split (fun c => !Source.isLineBreak c) body
  | block closer =>
    have taken := Source.takeUntil_split (fun rest => rest.probe closer ≠ .miss) body
    unfold commentLexeme at h
    dsimp only at h
    split at h
    . next hit =>
      simp only [Prod.mk.injEq, Except.ok.injEq] at h
      obtain ⟨rfl, rfl⟩ := h
      refine ⟨_, ?_, rfl⟩
      rw [List.map_append, List.append_assoc, ← Source.probe_hit_split hit, List.map_append,
        List.append_assoc, ← taken]
    . simp only [Prod.mk.injEq, Except.ok.injEq] at h
      obtain ⟨rfl, rfl⟩ := h
      refine ⟨_, ?_, rfl⟩
      rw [List.map_append, List.append_assoc, ← taken]
    . simp at h

theorem wordLexeme_spells {config : Config} {c : Char} {rest : Source} {line : Nat} {token : Token}
    {after : Cursor} (h : config.wordLexeme c rest line = (.ok token, after)) :
    ∃ chunk, .char c :: rest = chunk.map .char ++ after.input ∧ token.Spells config chunk := by
  have taken := Source.takeUntil_split (fun rest => config.wordStop rest ≠ .goesOn) rest
  unfold wordLexeme at h
  dsimp only at h
  split at h
  . simp at h
  . simp only [Prod.mk.injEq, Except.ok.injEq] at h
    obtain ⟨rfl, rfl⟩ := h
    refine ⟨_, ?_, rfl⟩
    rw [List.map_cons, List.cons_append, ← taken]

theorem numberLexeme_spells {config : Config} {cursor after : Cursor} {token : Token}
    (h : config.numberLexeme cursor = (.ok token, after)) :
    ∃ chunk, cursor.input = chunk.map .char ++ after.input ∧ token.Spells config chunk := by
  obtain ⟨whole, places, hn, htext, hkind⟩ := numberLexeme_ok h
  refine ⟨_, numeral_split hn, ?_⟩
  unfold Token.Spells
  rw [hkind]
  cases config.numbersAsWords with
  | true => exact htext
  | false => exact htext

theorem whitespaceLexeme_spells {config : Config} {cursor after : Cursor} {token : Token}
    (h : config.whitespaceLexeme cursor = (.ok token, after)) :
    ∃ chunk, cursor.input = chunk.map .char ++ after.input ∧ token.Spells config chunk := by
  obtain ⟨rfl, hafter⟩ := Scan.finish_ok h
  refine ⟨_, ?_, rfl⟩
  rw [hafter]
  exact Source.takeRun_split config.isWhitespace cursor.input

theorem lexeme_spells {config : Config} {cursor after : Cursor} {token : Token}
    (h : config.lexeme cursor = (.ok token, after)) (hne : cursor.input ≠ []) :
    ∃ chunk, cursor.input = chunk.map .char ++ after.input ∧
      (token.Spells config chunk ∨ token.SpellsOpen config chunk ∧ after.input = []) := by
  -- Only a string can be open, so all other forms fall under the first of the two cases.
  have closed (h : ∃ chunk, cursor.input = chunk.map .char ++ after.input ∧ token.Spells config chunk) :
      ∃ chunk, cursor.input = chunk.map .char ++ after.input ∧
        (token.Spells config chunk ∨ token.SpellsOpen config chunk ∧ after.input = []) := by
    obtain ⟨chunk, hsplit, hs⟩ := h
    exact ⟨chunk, hsplit, Or.inl hs⟩
  obtain ⟨input, line⟩ := cursor
  cases input with
  | nil => simp at hne
  | cons read rest =>
    cases read with
    | fault error => simp [lexeme] at h
    | char c =>
      unfold lexeme at h
      dsimp only at h
      split at h
      . exact closed (whitespaceLexeme_spells h)
      split at h
      . exact closed (numberLexeme_spells h)
      split at h
      . next hq => exact stringLexeme_spells hq h
      split at h
      . next hc => exact closed (newlineLexeme_spells hc h)
      split at h
      . next heq =>
        obtain ⟨chunk, hsplit, hs⟩ := commentLexeme_spells config h
        exact closed ⟨chunk, (opening_go_comment_split heq).2.trans hsplit, hs⟩
      . simp at h
      . exact closed (wordLexeme_spells h)

theorem scan_eq_lexeme {config : Config} (hw : config.ignoreWhitespace = false)
    (hc : config.ignoreComments = false) (cursor : Cursor) : config.scan cursor = config.lexeme cursor := by
  have hi (kind : TokenKind) : config.ignores kind = false := by
    cases kind <;> simp [ignores, hw, hc]
  rw [scan]
  split
  . next heq => rw [dif_neg (by simp [hi]), heq]
  . next heq => rw [heq]

theorem lexeme_of_upcoming {config : Config} (hw : config.ignoreWhitespace = false)
    (hc : config.ignoreComments = false) {cursor after : Cursor} {token : Token}
    (h : config.upcoming cursor = (.ok token, after)) : config.lexeme cursor = (.ok token, after) := by
  unfold upcoming at h
  split at h
  . next heq =>
    cases h
    rw [← scan_eq_lexeme hw hc]
    exact heq
  . simp at h

theorem tokensFrom_step {config : Config} (hw : config.ignoreWhitespace = false)
    (hc : config.ignoreComments = false) {chars : List Char} (hne : chars ≠ []) (line : Nat) :
    ∃ token chunk rest line', chunk ≠ [] ∧ chars = chunk ++ rest ∧
      config.tokensFrom ⟨chars.map .char, line⟩ = token :: config.tokensFrom ⟨rest.map .char, line'⟩ ∧
      (token.Spells config chunk ∨ token.SpellsOpen config chunk ∧ rest = []) := by
  have hinput : (⟨chars.map .char, line⟩ : Cursor).input ≠ [] := by simpa using hne
  have hfaultless : ∀ error, Read.fault error ∉ (⟨chars.map .char, line⟩ : Cursor).input := by simp
  obtain ⟨token, ⟨input, line'⟩, hup, _⟩ := @Tokenizer.upcoming_ok_of_faultless config _ hfaultless
  have hlexeme := lexeme_of_upcoming hw hc hup
  obtain ⟨chunk, hsplit, hspells⟩ := lexeme_spells hlexeme hinput
  have hlt := config.lexeme_length_lt hinput
  rw [hlexeme] at hlt
  obtain ⟨chunk', rest, rfl, hchunk, rfl⟩ := List.map_eq_append_iff.1 hsplit
  obtain rfl : chunk' = chunk := (List.map_inj_right fun _ _ => Read.char.inj).1 hchunk
  have hdelivered : token.delivered = [token] := by
    simp [Token.delivered, (lexeme_found hlexeme hinput).notEnd]
  have htokens := Tokenizer.remaining_of_peek (Tokenizer.fresh_consistent config _) hup
  rw [hdelivered] at htokens
  refine ⟨token, chunk', rest, line', ?_, rfl, htokens, by simpa using hspells⟩
  rintro rfl
  simp at hlt

theorem tokensFrom_spelled {config : Config} (hw : config.ignoreWhitespace = false)
    (hc : config.ignoreComments = false) (chars : List Char) (line : Nat) :
    ∃ chunks, config.Spelled (config.tokensFrom ⟨chars.map .char, line⟩) chunks ∧
      chunks.flatten = chars := by
  induction hn : chars.length using Nat.strongRecOn generalizing chars line with
  | ind n ih =>
    by_cases hnil : chars = []
    . rw [hnil, List.map_nil, Tokenizer.tokensFrom_nil]
      exact ⟨[], .nil, rfl⟩
    . obtain ⟨token, chunk, rest, line', hne, rfl, htokens, hspells⟩ := tokensFrom_step hw hc hnil line
      rw [htokens]
      rcases hspells with hspells | ⟨hspells, rfl⟩
      . have hpos := List.length_pos_iff.2 hne
        rw [List.length_append] at hn
        obtain ⟨chunks, hspelled, hflat⟩ := ih rest.length (by omega) rest line' rfl
        exact ⟨chunk :: chunks, .cons hne hspells hspelled, by rw [List.flatten_cons, hflat]⟩
      . rw [List.map_nil, Tokenizer.tokensFrom_nil]
        exact ⟨[chunk], .openString hspells, by simp⟩

end Config

namespace Tokenizer

theorem readAll_spelled {config : Config} (hw : config.ignoreWhitespace = false)
    (hc : config.ignoreComments = false) (text : String) :
    ∃ tokens ending chunks, (ofSource config (.ofText text)).readAll.tokens = tokens ++ [ending] ∧
      ending.isEndOfStream = true ∧ config.Spelled tokens chunks ∧ chunks.flatten = text.toList := by
  obtain ⟨ending, hending, htokens⟩ := (ofText_clean config text).readAll_tokens
  obtain ⟨chunks, hspelled, hflat⟩ := Config.tokensFrom_spelled hw hc text.toList 1
  exact ⟨_, ending, chunks, htokens, hending, hspelled, hflat⟩

-- Settings in which one opener starts with the other, and block comments are closed by nothing.
def overlappingComments : Config :=
  { ignoreWhitespace := false, lineComment := some "/-", blockComment := some ("/", ""),
    ignoreComments := false }

theorem readAll_spelled_overlappingComments :
    overlappingComments.ignoreWhitespace = false ∧ overlappingComments.ignoreComments = false ∧
      ∃ tokens ending chunks,
        (ofSource overlappingComments (.ofText "a/b /-c\r\n1.5 \"d\\\"")).readAll.tokens =
          tokens ++ [ending] ∧
        ending.isEndOfStream = true ∧ overlappingComments.Spelled tokens chunks ∧
        chunks.flatten = "a/b /-c\r\n1.5 \"d\\\"".toList := by
  exact ⟨rfl, rfl, readAll_spelled rfl rfl _⟩

end Tokenizer

end TokenGrammar
