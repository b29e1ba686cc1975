import TokenGrammar.Token.Scan

/-!
What a scan makes of a source. All that it takes off the source are characters, and the fault if it
fails (`Config.scan_exact`); a word takes at least as many reads as it has characters. The first
character of a token tells numbers, strings and line breaks from words.
-/

namespace TokenGrammar

namespace Source

def ReadsTo (input rest : Source) : Prop :=
  ∃ chars : List Char, input = chars.map .char ++ rest

theorem ReadsTo.refl (input : Source) : input.ReadsTo input := by
  exact ⟨[], rfl⟩

theorem ReadsTo.trans {input middle rest : Source} (h : input.ReadsTo middle) (h' : middle.ReadsTo rest) :
    input.ReadsTo rest := by
  obtain ⟨chars, rfl⟩ := h
  obtain ⟨chars', rfl⟩ := h'
  exact ⟨chars ++ chars', by simp⟩

theorem ReadsTo.cons {input rest : Source} (h : input.ReadsTo rest) (c : Char) :
    ReadsTo (.char c :: input) rest := by
  obtain ⟨chars, rfl⟩ := h
  exact ⟨c :: chars, rfl⟩

theorem ReadsTo.suffix {input rest : Source} (h : input.ReadsTo rest) : rest <:+ input := by
  obtain ⟨chars, rfl⟩ := h
  apply List.suffix_append

theorem takeUntil_go_split (stop : Source → Bool) (taken : List Char) (input : Source) :
    ∃ cs, (takeUntil.go stop taken input).1 = taken.reverse ++ cs ∧
      input = cs.map .char ++ (takeUntil.go stop taken input).2 := by
  induction input generalizing taken with
  | nil => exact ⟨[], by simp [takeUntil.go]⟩
  | cons read rest ih =>
    cases read with
    | fault error => exact ⟨[], by simp [takeUntil.go]⟩
    | char c =>
      unfold takeUntil.go
      split
      . exact ⟨[], by simp⟩
      . obtain ⟨cs, htaken, hrest⟩ := ih (c :: taken)
        refine ⟨c :: cs, ?_, ?_⟩
        . simpa using htaken
        . simpa using hrest

theorem takeUntil_split (stop : Source → Bool) (input : Source) :
    input = (takeUntil stop input).1.map .char ++ (takeUntil stop input).2 := by
  obtain ⟨cs, htaken, hrest⟩ := takeUntil_go_split stop [] input
  unfold takeUntil
  rw [htaken]
  exact hrest

theorem takeRun_split (p : Char → Bool) (input : Source) :
    input = (takeRun p input).1.map .char ++ (takeRun p input).2 := by
  apply takeUntil_split

theorem takeUntil_readsTo (stop : Source → Bool) (input : Source) :
    input.ReadsTo (takeUntil stop input).2 := by
  exact ⟨_, takeUntil_split stop input⟩

theorem takeRun_readsTo (p : Char → Bool) (input : Source) : input.ReadsTo (takeRun p input).2 := by
  apply takeUntil_readsTo

theorem takeUntil_length (stop : Source → Bool) (input : Source) :
    (takeUntil stop input).1.length + (takeUntil stop input).2.length = input.length := by
  have := congrArg List.length (takeUntil_split stop input)
  simpa using this.symm

theorem takeRun_head {p : Char → Bool} {c : Char} (h : p c) (rest : Source) :
    ∃ cs, (takeRun p (.char c :: rest)).1 = c :: cs := by
  have hc : startsWith p (.char c :: rest) = true := h
  obtain ⟨cs, htaken, _⟩ := takeUntil_go_split (fun rest => !startsWith p rest) [c] rest
  unfold takeRun takeUntil takeUntil.go
  simp only [hc, Bool.not_true, Bool.false_eq_true, ↓reduceIte]
  exact ⟨cs, htaken⟩

theorem probe_fault_readsTo {delimiter : List Char} {input rest : Source} {error : ReadError}
    (h : probe delimiter input = .fault error rest) : input.ReadsTo (.fault error :: rest) := by
  induction delimiter generalizing input with
  | nil => simp [probe] at h
  | cons d delimiter ih =>
    cases input with
    | nil => simp [probe] at h
    | cons read input =>
      cases read with
      | fault error' =>
        simp only [probe, Probe.fault.injEq] at h
        obtain ⟨rfl, rfl⟩ := h
        apply ReadsTo.refl
      | char c =>
        unfold probe at h
        split at h
        . exact (ih h).cons c
        . simp at h

end Source

def Scan.Splits (input : Source) : Scan → Prop
  | (.ok _, after) => after.input <:+ input
  | (.error error, after) => .fault error :: after.input <:+ input

def Scan.Exact (input : Source) : Scan → Prop
  | (.ok _, after) => input.ReadsTo after.input
  | (.error error, after) => input.ReadsTo (.fault error :: after.input)

namespace Scan

theorem Exact.splits {scan : Scan} {input : Source} (h : scan.Exact input) : scan.Splits input := by
  obtain ⟨result, after⟩ := scan
  cases result with
  | error error => exact Source.ReadsTo.suffix h
  | ok token => exact Source.ReadsTo.suffix h

theorem Exact.after {scan : Scan} {input input' : Source} (h : scan.Exact input)
    (hs : input'.ReadsTo input) : scan.Exact input' := by
  obtain ⟨result, after⟩ := scan
  cases result with
  | error error => exact hs.trans h
  | ok token => exact hs.trans h

theorem finish_exact (token : Token) (rest : Source) (line : Nat) :
    (finish token rest line).Exact rest := by
  unfold finish
  split
  . apply Source.ReadsTo.refl
  . apply Source.ReadsTo.refl

theorem finish_ok {token token' : Token} {rest : Source} {line : Nat} {after : Cursor}
    (h : finish token rest line = (.ok token', after)) : token = token' ∧ after.input = rest := by
  unfold finish at h
  split at h
  . simp at h
  . simp only [Prod.mk.injEq, Except.ok.injEq] at h
    simp [h.1, ← h.2]

end Scan

namespace Config

theorem opening_go_fault_readsTo {openers : List (List Char × CommentStyle)} {input rest : Source}
    {error : ReadError} (h : opening.go input openers = .fault error rest) :
    input.ReadsTo (.fault error :: rest) := by
  induction openers with
  | nil => simp [opening.go] at h
  | cons first openers ih =>
    unfold opening.go at h
    split at h
    . simp at h
    . exact ih h
    . next fault =>
      simp only [Opening.fault.injEq] at h
      rw [← h.1, ← h.2]
      exact Source.probe_fault_readsTo fault

theorem opening_go_comment_split {openers : List (List Char × CommentStyle)} {input body : Source}
    {opener : List Char} {style : CommentStyle}
    (h : opening.go input openers = .comment opener style body) :
    (opener, style) ∈ openers ∧ input = opener.map .char ++ body := by
  induction openers with
  | nil => simp [opening.go] at h
  | cons first openers ih =>
    unfold opening.go at h
    split at h
    . next hit =>
      simp only [Opening.comment.injEq] at h
      obtain ⟨rfl, rfl, rfl⟩ := h
      exact ⟨by simp, Source.probe_hit_split hit⟩
    . obtain ⟨hmem, hsplit⟩ := ih h
      exact ⟨by simp [hmem], hsplit⟩
    . simp at h

theorem wordStop_fault_readsTo {config : Config} {input rest : Source} {error : ReadError}
    (h : config.wordStop input = .fault error rest) : input.ReadsTo (.fault error :: rest) := by
  unfold wordStop at h
  split at h
  . simp at h
  . simp only [WordStop.fault.injEq] at h
    obtain ⟨rfl, rfl⟩ := h
    apply Source.ReadsTo.refl
  . split at h
    . simp at h
    . split at h
      . simp at h
      . simp at h
      . next fault =>
        simp only [WordStop.fault.injEq] at h
        rw [← h.1, ← h.2]
        exact opening_go_fault_readsTo fault

theorem stringBody_go_readsTo (quote : Char) (escape previous : Option Char) (taken : List Char)
    (input : Source) : input.ReadsTo (stringBody.go quote escape previous taken input).2 := by
  induction input generalizing previous taken with
  | nil => apply Source.ReadsTo.refl
  | cons read rest ih =>
    cases read with
    | fault error => apply Source.ReadsTo.refl
    | char c =>
      unfold stringBody.go
      split
      . apply Source.ReadsTo.refl
      . exact (ih (some c) (c :: taken)).cons c

def numeralText (whole : List Char) : Option (List Char) → List Char
  | none => whole
  | some places => whole ++ '.' :: places

theorem numeral_split {input rest : Source} {whole : List Char} {places : Option (List Char)}
    (h : numeral input = (whole, places, rest)) :
    input = (numeralText whole places).map .char ++ rest := by
  have run := Source.takeRun_split Char.isDigit input
  unfold numeral at h
  dsimp only at h
  split at h
  . next tail heq =>
    have fraction := Source.takeRun_split Char.isDigit tail
    simp only [Prod.mk.injEq] at h
    obtain ⟨rfl, rfl, rfl⟩ := h
    rw [heq] at run
    simp only [numeralText, List.map_append, List.map_cons, List.append_assoc, List.cons_append]
    rw [← fraction]
    exact run
  . simp only [Prod.mk.injEq] at h
    obtain ⟨rfl, rfl, rfl⟩ := h
    exact run

theorem whitespaceLexeme_exact (config : Config) (cursor : Cursor) :
    (config.whitespaceLexeme cursor).Exact cursor.input := by
  have run := Source.takeRun_readsTo config.isWhitespace cursor.input
  exact (Scan.finish_exact _ _ _).after run

theorem numberLexeme_exact (config : Config) (cursor : Cursor) :
    (config.numberLexeme cursor).Exact cursor.input := by
  exact (Scan.finish_exact _ _ _).after ⟨_, numeral_split rfl⟩

theorem stringLexeme_exact (config : Config) (quote : Char) (content : Source) (line : Nat) :
    (config.stringLexeme quote content line).Exact content := by
  have body := stringBody_go_readsTo quote config.activeEscape none [] content
  unfold stringLexeme stringBody
  dsimp only
  split
  . next heq =>
    rw [heq] at body
    exact body
  . next c rest heq =>
    rw [heq] at body
    exact body.trans ((Source.ReadsTo.refl rest).cons c)
  . next heq =>
    rw [heq] at body
    exact body

theorem newlineLexeme_exact (c : Char) (rest : Source) (line : Nat) :
    (newlineLexeme c rest line).Exact rest := by
  unfold newlineLexeme
  dsimp only
  split
  . split
    . apply Source.ReadsTo.cons
      apply Source.ReadsTo.refl
    . apply Source.ReadsTo.refl
    . apply Source.ReadsTo.refl
  . apply Source.ReadsTo.refl

theorem commentLexeme_exact (opener : List Char) (style : CommentStyle) (body : Source) (line : Nat) :
    (commentLexeme opener style body line).Exact body := by
  cases style with
  | line =>
    apply (Scan.finish_exact _ _ _).after
    apply Source.takeRun_readsTo
  | block closer =>
    have taken := Source.takeUntil_readsTo (fun rest => rest.probe closer ≠ .miss) body
    unfold commentLexeme
    dsimp only
    split
    . next hit => exact taken.trans ⟨closer, Source.probe_hit_split hit⟩
    . exact taken
    . next fault => exact taken.trans (Source.probe_fault_readsTo fault)

theorem wordLexeme_exact (config : Config) (c : Char) (rest : Source) (line : Nat) :
    (config.wordLexeme c rest line).Exact rest := by
  have taken := Source.takeUntil_readsTo (fun rest => config.wordStop rest ≠ .goesOn) rest
  unfold wordLexeme
  dsimp only
  split
  . next fault => exact taken.trans (wordStop_fault_readsTo fault)
  . exact taken

theorem lexeme_exact (config : Config) (cursor : Cursor) :
    (config.lexeme cursor).Exact cursor.input := by
  obtain ⟨input, line⟩ := cursor
  cases input with
  | nil => apply Source.ReadsTo.refl
  | cons read rest =>
    cases read with
    | fault error => apply Source.ReadsTo.refl
    | char c =>
      have first := (Source.ReadsTo.refl rest).cons c
      unfold lexeme
      dsimp only
      split
      . apply whitespaceLexeme_exact
      split
      . apply numberLexeme_exact
      split
      . exact (stringLexeme_exact config c rest line).after first
      split
      . exact (newlineLexeme_exact c rest line).after first
      split
      . next opener style body heq =>
        apply (commentLexeme_exact opener style body line).after
        exact ⟨opener, (opening_go_comment_split heq).2⟩
      . next heq => exact opening_go_fault_readsTo heq
      . exact (wordLexeme_exact config c rest line).after first

end Config

def Token.HasShape (config : Config) (token : Token) : Prop :=
  match token.kind with
  | .word => token.text ≠ ""
  | .number => ∃ c cs, token.text.toList = c :: cs ∧ c.isDigit
  | .string => ∃ c cs, token.text.toList = c :: cs ∧ config.isQuote c
  | .newline => token.text = "\n"
  | _ => True

structure Scan.Found (config : Config) (input : Source) (token : Token) (after : Cursor) : Prop where
  shape : token.HasShape config
  notEnd : token.isEndOfStream = false
  word : token.kind = .word → after.input.length + token.text.length ≤ input.length

namespace Config

theorem numeral_head {c : Char} (hc : c.isDigit) {input rest : Source} {whole : List Char}
    {places : Option (List Char)} (h : numeral (.char c :: input) = (whole, places, rest)) :
    ∃ cs, numeralText whole places = c :: cs := by
  obtain ⟨cs, hcs⟩ := Source.takeRun_head (p := Char.isDigit) hc input
  unfold numeral at h
  dsimp only at h
  split at h
  . simp only [Prod.mk.injEq] at h
    rw [← h.1, ← h.2.1, hcs]
    exact ⟨_, rfl⟩
  . simp only [Prod.mk.injEq] at h
    rw [← h.1, ← h.2.1, hcs]
    exact ⟨cs, rfl⟩

theorem numberLexeme_ok {config : Config} {cursor after : Cursor} {token : Token}
    (h : config.numberLexeme cursor = (.ok token, after)) :
    ∃ whole places, numeral cursor.input = (whole, places, after.input) ∧
      token.text = String.ofList (numeralText whole places) ∧
      token.kind = if config.numbersAsWords then .word else .number := by
  obtain ⟨whole, places, rest, hn⟩ : ∃ whole places rest, numeral cursor.input = (whole, places, rest) :=
    ⟨_, _, _, rfl⟩
  simp only [numberLexeme, hn] at h
  obtain ⟨htoken, hafter⟩ := Scan.finish_ok h
  refine ⟨whole, places, ?_, ?_, ?_⟩
  . rw [hn, hafter]
  . rw [← htoken]
    cases places with
    | none => rfl
    | some places => rfl
  . rw [← htoken]

theorem numberLexeme_found {config : Config} {c : Char} (hc : c.isDigit) {rest : Source} {line : Nat}
    {token : Token} {after : Cursor}
    (h : config.numberLexeme ⟨.char c :: rest, line⟩ = (.ok token, after)) :
    Scan.Found config (.char c :: rest) token after := by
  obtain ⟨whole, places, hn, htext, hkind⟩ := numberLexeme_ok h
  obtain ⟨cs, hcs⟩ := numeral_head hc hn
  have length := congrArg List.length (numeral_split hn)
  rw [hcs] at htext length
  constructor
  . unfold Token.HasShape
    rw [hkind, htext]
    cases config.numbersAsWords with
    | true => simp
    | false => exact ⟨c, cs, by simp, hc⟩
  . unfold Token.isEndOfStream
    rw [hkind]
    cases config.numbersAsWords with
    | true => rfl
    | false => rfl
  . intro _
    rw [htext, String.length_ofList]
    simp only [List.length_append, List.length_map] at length
    omega

theorem stringLexeme_found {config : Config} {quote : Char} (hq : config.isQuote quote)
    {content : Source} {line : Nat} {token : Token} {after : Cursor}
    (h : config.stringLexeme quote content line = (.ok token, after)) :
    Scan.Found config (.char quote :: content) token after := by
  have htoken : token.kind = .string ∧ ∃ cs, token.text.toList = quote :: cs := by
    unfold stringLexeme at h
    dsimp only at h
    split at h
    . simp only [Prod.mk.injEq, Except.ok.injEq] at h
      simp [← h.1]
    . simp only [Prod.mk.injEq, Except.ok.injEq] at h
      simp [← h.1]
    . simp at h
  obtain ⟨hkind, cs, htext⟩ := htoken
  constructor
  . simp only [Token.HasShape, hkind]
    exact ⟨quote, cs, htext, hq⟩
  . simp [Token.isEndOfStream, hkind]
  . simp [hkind]

theorem newlineLexeme_found {config : Config} {c : Char} {rest : Source} {line : Nat} {token : Token}
    {after : Cursor} (h : newlineLexeme c rest line = (.ok token, after)) :
    Scan.Found config (.char c :: rest) token after := by
  have htoken : token.kind = .newline ∧ token.text = "\n" := by
    unfold newlineLexeme at h
    dsimp only at h
    split at h
    . split at h
      . simp only [Prod.mk.injEq, Except.ok.injEq] at h
        simp [← h.1]
      . simp at h
      . simp only [Prod.mk.injEq, Except.ok.injEq] at h
        simp [← h.1]
    . simp only [Prod.mk.injEq, Except.ok.injEq] at h
      simp [← h.1]
  constructor
  . simp [Token.HasShape, htoken.1, htoken.2]
  . simp [Token.isEndOfStream, htoken.1]
  . simp [htoken.1]

theorem commentLexeme_found {config : Config} {input : Source} {opener : List Char}
    {style : CommentStyle} {body : Source} {line : Nat} {token : Token} {after : Cursor}
    (h : commentLexeme opener style body line = (.ok token, after)) :
    Scan.Found config input token after := by
  have hkind : token.kind = .lineComment ∨ token.kind = .blockComment := by
    unfold commentLexeme at h
    split at h
    . obtain ⟨rfl, _⟩ := Scan.finish_ok h
      simp
    . dsimp only at h
      split at h
      . simp only [Prod.mk.injEq, Except.ok.injEq] at h
        simp [← h.1]
      . simp only [Prod.mk.injEq, Except.ok.injEq] at h
        simp [← h.1]
      . simp at h
  constructor
  . cases hkind with
    | inl hkind => simp [Token.HasShape, hkind]
    | inr hkind => simp [Token.HasShape, hkind]
  . cases hkind with
    | inl hkind => simp [Token.isEndOfStream, hkind]
    | inr hkind => simp [Token.isEndOfStream, hkind]
  . cases hkind with
    | inl hkind => simp [hkind]
    | inr hkind => simp [hkind]

theorem wordLexeme_found {config : Config} {c : Char} {rest : Source} {line : Nat} {token : Token}
    {after : Cursor} (h : config.wordLexeme c rest line = (.ok token, after)) :
    Scan.Found config (.char c :: rest) token after := by
  have length := Source.takeUntil_length (fun rest => config.wordStop rest ≠ .goesOn) rest
  unfold wordLexeme at h
  dsimp only at h
  split at h
  . simp at h
  . simp only [Prod.mk.injEq, Except.ok.injEq] at h
    obtain ⟨rfl, rfl⟩ := h
    constructor
    . simp [Token.HasShape]
    . simp [Token.isEndOfStream]
    . intro _
      simp only [String.length_ofList, List.length_cons]
      omega

theorem lexeme_found {config : Config} {cursor after : Cursor} {token : Token}
    (h : config.lexeme cursor = (.ok token, after)) (hne : cursor.input ≠ []) :
    Scan.Found config cursor.input token after := by
  obtain ⟨input, line⟩ := cursor
  cases input with
  | nil => simp at hne
  | cons read rest =>
    cases read with
    | fault error => simp [lexeme] at h
    | char c =>
      unfold lexeme at h
      dsimp only at h
      split at h
      . obtain ⟨rfl, _⟩ := Scan.finish_ok h
        constructor
        . simp [Token.HasShape]
        . simp [Token.isEndOfStream]
        . simp
      split at h
      . next hd => exact numberLexeme_found hd h
      split at h
      . next hq => exact stringLexeme_found hq h
      split at h
      . exact newlineLexeme_found h
      split at h
      . exact commentLexeme_found h
      . simp at h
      . exact wordLexeme_found h

inductive Dispatch (config : Config) (line : Nat) : Source → Scan → Prop where
  | ending : Dispatch config line [] (.ok (.endOfStream line), ⟨[], line⟩)
  | fault (error : ReadError) (rest : Source) :
    Dispatch config line (.fault error :: rest) (.error error, ⟨rest, line⟩)
  | whitespace {c : Char} (rest : Source) : config.isWhitespace c = true →
    Dispatch config line (.char c :: rest) (config.whitespaceLexeme ⟨.char c :: rest, line⟩)
  | number {c : Char} (rest : Source) : config.isWhitespace c = false → c.isDigit = true →
    Dispatch config line (.char c :: rest) (config.numberLexeme ⟨.char c :: rest, line⟩)
  | string {c : Char} (rest : Source) : config.isWhitespace c = false → c.isDigit = false →
    config.isQuote c = true → Dispatch config line (.char c :: rest) (config.stringLexeme c rest line)
  | newline {c : Char} (rest : Source) : config.isWhitespace c = false → c.isDigit = false →
    config.isQuote c = false → Source.isLineBreak c = true →
    Dispatch config line (.char c :: rest) (newlineLexeme c rest line)
  | comment {c : Char} {rest : Source} {opener : List Char} {style : CommentStyle} {body : Source} :
    config.isWhitespace c = false → c.isDigit = false → config.isQuote c = false →
    Source.isLineBreak c = false → config.opening (.char c :: rest) = .comment opener style body →
    Dispatch config line (.char c :: rest) (commentLexeme opener style body line)
  | openingFault {c : Char} {rest : Source} {error : ReadError} {after : Source} :
    config.isWhitespace c = false → c.isDigit = false → config.isQuote c = false →
    Source.isLineBreak c = false → config.opening (.char c :: rest) = .fault error after →
    Dispatch config line (.char c :: rest) (.error error, ⟨after, line⟩)
  | word {c : Char} {rest : Source} : config.isWhitespace c = false → c.isDigit = false →
    config.isQuote c = false → Source.isLineBreak c = false →
    config.opening (.char c :: rest) = .none →
    Dispatch config line (.char c :: rest) (config.wordLexeme c rest line)

theorem lexeme_dispatch (config : Config) (input : Source) (line : Nat) :
    config.Dispatch line input (config.lexeme ⟨input, line⟩) := by
  cases input with
  | nil => exact .ending
  | cons read rest =>
    cases read with
    | fault error => exact .fault error rest
    | char c =>
      unfold lexeme
      dsimp only
      split
      . next hw => exact .whitespace rest hw
      next hw =>
      rw [Bool.not_eq_true] at hw
      split
      . next hd => exact .number rest hw hd
      next hd =>
      rw [Bool.not_eq_true] at hd
      split
      . next hq => exact .string rest hw hd hq
      next hq =>
      rw [Bool.not_eq_true] at hq
      split
      . next hb => exact .newline rest hw hd hq hb
      next hb =>
      rw [Bool.not_eq_true] at hb
      split
      . next ho => exact .comment hw hd hq hb ho
      . next ho => exact .openingFault hw hd hq hb ho
      . next ho => exact .word hw hd hq hb ho

theorem scan_eq (config : Config) (cursor : Cursor) :
    config.scan cursor =
      match config.lexeme cursor with
      | (.ok token, after) => if config.ignores token.kind then config.scan after else (.ok token, after)
      | (.error error, after) => (.error error, after) := by
  rw [scan]
  split
  . next heq =>
    split
    . next hi => simp only [heq, hi, ↓reduceIte]
    . next hi => simp only [heq, hi, Bool.false_eq_true, ↓reduceIte]
  . next heq => rw [heq]

theorem scan_exact (config : Config) (cursor : Cursor) : (config.scan cursor).Exact cursor.input := by
  fun_induction config.scan cursor with
  | case1 cursor token after heq hi hlt ih =>
    have step := config.lexeme_exact cursor
    rw [heq] at step
    exact ih.after step
  | case2 cursor token after heq hi =>
    have step := config.lexeme_exact cursor
    rw [heq] at step
    exact step
  | case3 cursor error after heq =>
    have step := config.lexeme_exact cursor
    rw [heq] at step
    exact step

theorem scan_splits (config : Config) (cursor : Cursor) : (config.scan cursor).Splits cursor.input := by
  exact (config.scan_exact cursor).splits

theorem scan_ok {config : Config} {cursor after : Cursor} {token : Token}
    (h : config.scan cursor = (.ok token, after)) :
    token = .endOfStream after.line ∧ after.input = [] ∨
      Scan.Found config cursor.input token after ∧ config.ignores token.kind = false := by
  fun_induction config.scan cursor with
  | case1 cursor skipped next heq hi hlt ih =>
    cases ih h with
    | inl hend => exact Or.inl hend
    | inr hfound =>
      refine Or.inr ⟨⟨hfound.1.shape, hfound.1.notEnd, ?_⟩, hfound.2⟩
      intro hword
      have := hfound.1.word hword
      omega
  | case2 cursor token' next heq hi =>
    simp only [Prod.mk.injEq, Except.ok.injEq] at h
    obtain ⟨rfl, rfl⟩ := h
    by_cases hnil : cursor.input = []
    . simp only [lexeme, hnil, Prod.mk.injEq, Except.ok.injEq] at heq
      rw [← heq.1, ← heq.2]
      exact Or.inl ⟨rfl, hnil⟩
    . exact Or.inr ⟨lexeme_found heq hnil, by simpa using hi⟩
  | case3 cursor error next heq => simp at h

theorem scan_nil (config : Config) (line : Nat) :
    config.scan ⟨[], line⟩ = (.ok (.endOfStream line), ⟨[], line⟩) := by
  rw [scan]
  simp [lexeme, ignores, Token.endOfStream]

theorem scan_error_length_lt {config : Config} {cursor after : Cursor} {error : ReadError}
    (h : config.scan cursor = (.error error, after)) : after.input.length < cursor.input.length := by
  have := config.scan_splits cursor
  rw [h] at this
  have := List.IsSuffix.length_le this
  simp only [List.length_cons] at this
  omega

end Config

end TokenGrammar
