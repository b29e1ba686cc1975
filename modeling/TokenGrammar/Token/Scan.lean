import TokenGrammar.Token.Lexeme

/-!
The tokens of a source under a configuration that leaves some of them out: `Config.scan` takes tokens
off the source until one comes that is not left out. It ends because every token but the end of the
stream takes at least one read off the source (`Config.lexeme_length_lt`).
-/

namespace TokenGrammar

namespace Scan

theorem finish_length_le (token : Token) (rest : Source) (line : Nat) :
    (finish token rest line).2.input.length ≤ rest.length := by
  unfold finish
  split <;> simp

end Scan

namespace Config

theorem opening_go_comment_length_lt {openers : List (List Char × CommentStyle)} {input : Source}
    {opener : List Char} {style : CommentStyle} {body : Source}
    (hne : ∀ o ∈ openers, o.1 ≠ []) (h : opening.go input openers = .comment opener style body) :
    body.length < input.length := by
  induction openers with
  | nil => simp [opening.go] at h
  | cons first openers ih =>
    simp only [opening.go] at h
    split at h
    . rename_i hit
      simp only [Opening.comment.injEq] at h
      have length := Source.probe_hit_length hit
      have := List.length_pos_iff.2 (hne first (by simp))
      rw [h.2.2] at length
      omega
    . exact ih (fun o ho => hne o (by simp [ho])) h
    . simp at h

theorem openers_ne_nil (config : Config) : ∀ o ∈ config.openers, o.1 ≠ [] := by
  intro o ho
  simp only [openers, List.mem_filter] at ho
  simpa using ho.2

theorem opening_comment_length_lt {config : Config} {input : Source} {opener : List Char}
    {style : CommentStyle} {body : Source} (h : config.opening input = .comment opener style body) :
    body.length < input.length :=
  opening_go_comment_length_lt config.openers_ne_nil h

theorem opening_go_fault_length_lt {openers : List (List Char × CommentStyle)} {input rest : Source}
    {error : ReadError} (h : opening.go input openers = .fault error rest) :
    rest.length < input.length := by
  induction openers with
  | nil => simp [opening.go] at h
  | cons first openers ih =>
    simp only [opening.go] at h
    split at h
    . simp at h
    . exact ih h
    . rename_i fault
      simp only [Opening.fault.injEq] at h
      exact h.2 ▸ Source.probe_fault_length_lt fault

theorem opening_fault_length_lt {config : Config} {input rest : Source} {error : ReadError}
    (h : config.opening input = .fault error rest) : rest.length < input.length :=
  opening_go_fault_length_lt h

theorem wordStop_fault_length_lt {config : Config} {input rest : Source} {error : ReadError}
    (h : config.wordStop input = .fault error rest) : rest.length < input.length := by
  unfold wordStop at h
  split at h
  . simp at h
  . simp only [WordStop.fault.injEq] at h
    simp [h.2]
  . split at h
    . simp at h
    . split at h
      . simp at h
      . simp at h
      . rename_i heq
        simp only [WordStop.fault.injEq] at h
        exact h.2 ▸ opening_fault_length_lt heq

theorem stringBody_go_length_le (quote : Char) (escape previous : Option Char) (taken : List Char)
    (input : Source) :
    (stringBody.go quote escape previous taken input).2.length ≤ input.length := by
  induction input generalizing previous taken with
  | nil => simp [stringBody.go]
  | cons read rest ih =>
    cases read with
    | fault error => simp [stringBody.go]
    | char c =>
      simp only [stringBody.go]
      split
      . simp
      . have := ih (some c) (c :: taken)
        simp only [List.length_cons]
        omega

theorem numeral_length_lt {c : Char} (h : c.isDigit) (rest : Source) :
    (numeral (.char c :: rest)).2.2.length < rest.length + 1 := by
  have run := Source.takeRun_length_lt (p := Char.isDigit) h rest
  simp only [numeral]
  split
  . rename_i tail heq
    have places := Source.takeRun_length_le Char.isDigit tail
    simp only [heq, List.length_cons] at run ⊢
    omega
  . exact run

theorem stringLexeme_length_le (config : Config) (quote : Char) (content : Source) (line : Nat) :
    (config.stringLexeme quote content line).2.input.length ≤ content.length := by
  have body := stringBody_go_length_le quote config.activeEscape none [] content
  simp only [stringLexeme, stringBody]
  split <;> rename_i heq <;> simp only [heq, List.length_cons, List.length_nil] at body ⊢ <;> omega

theorem newlineLexeme_length_le (c : Char) (rest : Source) (line : Nat) :
    (newlineLexeme c rest line).2.input.length ≤ rest.length := by
  simp only [newlineLexeme]
  split
  . split <;> simp
  . simp

theorem commentLexeme_length_le (opener : List Char) (style : CommentStyle) (body : Source)
    (line : Nat) : (commentLexeme opener style body line).2.input.length ≤ body.length := by
  cases style with
  | line =>
    have := Source.takeRun_length_le (fun c => !Source.isLineBreak c) body
    exact Nat.le_trans (Scan.finish_length_le _ _ _) this
  | block closer =>
    have := Source.takeUntil_length_le (fun rest => rest.probe closer ≠ .miss) body
    simp only [commentLexeme]
    split
    . rename_i hit
      have := Source.probe_hit_length hit
      simp only
      omega
    . exact this
    . rename_i fault
      have := Source.probe_fault_length_lt fault
      simp only
      omega

theorem wordLexeme_length_le (config : Config) (c : Char) (rest : Source) (line : Nat) :
    (config.wordLexeme c rest line).2.input.length ≤ rest.length := by
  have := Source.takeUntil_length_le (fun rest => config.wordStop rest ≠ .goesOn) rest
  simp only [wordLexeme]
  split
  . rename_i fault
    have := wordStop_fault_length_lt fault
    simp only
    omega
  . exact this

theorem lexeme_length_lt (config : Config) {cursor : Cursor} (h : cursor.input ≠ []) :
    (config.lexeme cursor).2.input.length < cursor.input.length := by
  obtain ⟨input, line⟩ := cursor
  cases input with
  | nil => simp at h
  | cons read rest =>
    cases read with
    | fault error => simp [lexeme]
    | char c =>
      simp only [lexeme, List.length_cons]
      split
      . rename_i hw
        exact Nat.lt_of_le_of_lt (Scan.finish_length_le _ _ _) (Source.takeRun_length_lt hw rest)
      split
      . rename_i hd
        exact Nat.lt_of_le_of_lt (Scan.finish_length_le _ _ _) (numeral_length_lt hd rest)
      split
      . exact Nat.lt_succ_of_le (stringLexeme_length_le config c rest line)
      split
      . exact Nat.lt_succ_of_le (newlineLexeme_length_le c rest line)
      split
      . rename_i opener style body heq
        have := opening_comment_length_lt heq
        exact Nat.lt_of_le_of_lt (commentLexeme_length_le opener style body line) (by simpa using this)
      . rename_i heq
        have := opening_fault_length_lt heq
        simpa using this
      . exact Nat.lt_succ_of_le (wordLexeme_length_le config c rest line)

theorem input_ne_nil_of_ignores {config : Config} {cursor after : Cursor} {token : Token}
    (h : config.lexeme cursor = (.ok token, after)) (hi : config.ignores token.kind) :
    cursor.input ≠ [] := by
  intro hnil
  simp only [lexeme, hnil, Prod.mk.injEq, Except.ok.injEq] at h
  simp [← h.1, ignores, Token.endOfStream] at hi

def scan (config : Config) (cursor : Cursor) : Scan :=
  match h : config.lexeme cursor with
  | (.ok token, after) =>
    if hi : config.ignores token.kind then
      have : after.input.length < cursor.input.length := by
        simpa [h] using config.lexeme_length_lt (input_ne_nil_of_ignores h hi)
      config.scan after
    else (.ok token, after)
  | (.error error, after) => (.error error, after)
termination_by cursor.input.length

theorem scan_ok_length_lt {config : Config} {cursor after : Cursor} {token : Token}
    (h : config.scan cursor = (.ok token, after)) (hne : token.isEndOfStream = false) :
    after.input.length < cursor.input.length := by
  fun_induction config.scan cursor with
  | case1 cursor token' next heq hi hlt ih => exact Nat.lt_trans (ih h) hlt
  | case2 cursor token' next heq hi =>
    simp only [Prod.mk.injEq, Except.ok.injEq] at h
    obtain ⟨rfl, rfl⟩ := h
    have := @lexeme_length_lt config cursor
    simp only [heq] at this
    apply this
    intro hnil
    simp only [lexeme, hnil, Prod.mk.injEq, Except.ok.injEq] at heq
    simp [← heq.1, Token.isEndOfStream, Token.endOfStream] at hne
  | case3 cursor error next heq => simp at h

end Config

end TokenGrammar
