import TokenGrammar.Lookahead

/-!
Tokens off a reader that can take back one character only, with the characters that are put back on a stack
above it (`Lookahead`). A scanner takes characters, puts one back when it has gone too far, and counts lines
as it goes. It answers as `Config.lexeme` does, which splits a source that is a value.
-/

namespace TokenGrammar

structure Scanner where
  ahead : Lookahead
  line : Nat := 1
  deriving DecidableEq, Repr

namespace Scanner

abbrev Step (α : Type) := Except ReadError α × Scanner

def Step.map {α β : Type} (f : α → β) (step : Step α) : Step β :=
  (step.1.map f, step.2)

def ofSource (source : Source) : Scanner :=
  { ahead := { reader := .ofSource source } }

def cursor (s : Scanner) : Cursor :=
  ⟨s.ahead.pending, s.line⟩

def lift {α : Type} (op : Lookahead → Except ReadError α × Lookahead) (s : Scanner) : Step α :=
  ((op s.ahead).1, { s with ahead := (op s.ahead).2 })

def bump (s : Scanner) : Step (Option Char) :=
  s.lift Lookahead.next

def unread (s : Scanner) (c : Char) : Scanner :=
  { s with ahead := s.ahead.unread c }

def peek (s : Scanner) : Step (Option Char) :=
  s.lift Lookahead.peek

def eat (s : Scanner) (delimiter : List Char) : Step Bool :=
  s.lift fun ahead => ahead.eat delimiter

def endsWord (s : Scanner) (config : Config) (c : Char) : Step Bool :=
  s.lift fun ahead => ahead.endsWord config c

def newLine (s : Scanner) : Scanner :=
  { s with line := s.line + 1 }

def countLineBreak (s : Scanner) (c : Char) : Step Unit :=
  if c = '\n' then (.ok (), s.newLine)
  else if c = '\r' then
    match s.peek with
    | (.error error, s) => (.error error, s)
    | (.ok next, s) => (.ok (), if next = some '\n' then s else s.newLine)
  else (.ok (), s)

section

variable {s s' : Scanner}

theorem lift_eq {α : Type} {op : Lookahead → Except ReadError α × Lookahead} {result : Except ReadError α}
    (h : s.lift op = (result, s')) : op s.ahead = (result, s'.ahead) ∧ s.line = s'.line := by
  simp only [lift, Prod.mk.injEq] at h
  obtain ⟨rfl, rfl⟩ := h
  exact ⟨rfl, rfl⟩

theorem cursor_newLine (s : Scanner) : s.newLine.cursor = ⟨s.cursor.input, s.cursor.line + 1⟩ := rfl

theorem cursor_unread (s : Scanner) (c : Char) :
    (s.unread c).cursor = ⟨.char c :: s.cursor.input, s.cursor.line⟩ := rfl

theorem bump_char {c : Char} (h : s.bump = (.ok (some c), s')) :
    s.cursor = ⟨.char c :: s'.cursor.input, s'.cursor.line⟩ := by
  obtain ⟨hnext, hline⟩ := lift_eq h
  simp only [cursor, Lookahead.next_char hnext, hline]

theorem bump_end (h : s.bump = (.ok none, s')) : ∃ line, s.cursor = ⟨[], line⟩ ∧ s'.cursor = ⟨[], line⟩ := by
  obtain ⟨hnext, hline⟩ := lift_eq h
  obtain ⟨hpending, hafter⟩ := Lookahead.next_end hnext
  simp [cursor, hpending, hafter, hline]

theorem bump_fault {error : ReadError} (h : s.bump = (.error error, s')) :
    s.cursor = ⟨.fault error :: s'.cursor.input, s'.cursor.line⟩ := by
  obtain ⟨hnext, hline⟩ := lift_eq h
  simp only [cursor, Lookahead.next_fault hnext, hline]

theorem peek_char {c : Char} (h : s.peek = (.ok (some c), s')) :
    ∃ rest line, s.cursor = ⟨.char c :: rest, line⟩ ∧ s'.cursor = ⟨.char c :: rest, line⟩ := by
  obtain ⟨hpeek, hline⟩ := lift_eq h
  obtain ⟨hafter, rest, hrest⟩ := Lookahead.peek_char hpeek
  simp [cursor, hafter, hrest, hline]

theorem peek_end (h : s.peek = (.ok none, s')) : ∃ line, s.cursor = ⟨[], line⟩ ∧ s'.cursor = ⟨[], line⟩ := by
  obtain ⟨hpeek, hline⟩ := lift_eq h
  obtain ⟨hpending, hafter⟩ := Lookahead.peek_end hpeek
  simp [cursor, hpending, hafter, hline]

theorem peek_fault {error : ReadError} (h : s.peek = (.error error, s')) :
    s.cursor = ⟨.fault error :: s'.cursor.input, s'.cursor.line⟩ := by
  obtain ⟨hpeek, hline⟩ := lift_eq h
  simp only [cursor, Lookahead.peek_fault hpeek, hline]

theorem eat_hit {delimiter : List Char} (h : s.eat delimiter = (.ok true, s')) :
    s.cursor.input.probe delimiter = .hit s'.cursor.input ∧ s.cursor.line = s'.cursor.line := by
  obtain ⟨heat, hline⟩ := lift_eq h
  exact ⟨Lookahead.eat_hit heat, hline⟩

theorem eat_miss {delimiter : List Char} (h : s.eat delimiter = (.ok false, s')) :
    s.cursor.input.probe delimiter = .miss ∧ s'.cursor = s.cursor := by
  obtain ⟨heat, hline⟩ := lift_eq h
  obtain ⟨hmiss, hafter⟩ := Lookahead.eat_miss heat
  simp only [cursor, hafter, hline, and_true]
  exact hmiss

theorem eat_fault {delimiter : List Char} {error : ReadError} (h : s.eat delimiter = (.error error, s')) :
    s.cursor.input.probe delimiter = .fault error s'.cursor.input ∧ s.cursor.line = s'.cursor.line := by
  obtain ⟨heat, hline⟩ := lift_eq h
  exact ⟨Lookahead.eat_fault heat, hline⟩

theorem endsWord_ok {config : Config} {c : Char} {ends : Bool} {rest : Source}
    (hc : s.cursor.input = .char c :: rest) (h : s.endsWord config c = (.ok ends, s')) :
    config.wordStop s.cursor.input = (if ends then .ends else .goesOn) ∧ s'.cursor = s.cursor := by
  obtain ⟨hends, hline⟩ := lift_eq h
  have hstop := Lookahead.endsWord_char hc config
  rw [hends] at hstop
  unfold WordStop.answer at hstop
  split at hstop <;> simp_all [cursor]

theorem endsWord_fault {config : Config} {c : Char} {error : ReadError} {rest : Source}
    (hc : s.cursor.input = .char c :: rest) (h : s.endsWord config c = (.error error, s')) :
    config.wordStop s.cursor.input = .fault error s'.cursor.input ∧ s.cursor.line = s'.cursor.line := by
  obtain ⟨hends, hline⟩ := lift_eq h
  have hstop := Lookahead.endsWord_char hc config
  rw [hends] at hstop
  unfold WordStop.answer at hstop
  split at hstop <;> simp_all [cursor]

theorem countLineBreak_ok {c : Char} (h : s.countLineBreak c = (.ok (), s')) :
    s'.cursor = ⟨s.cursor.input, s.cursor.line + s.cursor.input.breakAt c⟩ := by
  unfold countLineBreak at h
  split at h
  . next hc =>
    cases h
    simp [hc, Source.breakAt, cursor_newLine]
  split at h
  . next hn hc =>
    subst hc
    split at h
    . simp at h
    . next next after hpeek =>
      cases h
      cases next with
      | none =>
        obtain ⟨line, hs, hafter⟩ := peek_end hpeek
        simp [cursor_newLine, hs, hafter, Source.breakAt]
      | some d =>
        obtain ⟨rest, line, hs, hafter⟩ := peek_char hpeek
        rw [hs]
        by_cases hd : d = '\n' <;> simp [hd, cursor_newLine, hafter, Source.breakAt]
  . next hn hr =>
    cases h
    simp [hn, hr, Source.breakAt]

theorem countLineBreak_fault {c : Char} {error : ReadError} (h : s.countLineBreak c = (.error error, s')) :
    s.cursor = ⟨.fault error :: s'.cursor.input, s'.cursor.line⟩ ∧ s.cursor.input.breakAt c = 0 := by
  unfold countLineBreak at h
  split at h
  . simp at h
  split at h
  . next hn hc =>
    split at h
    . next hpeek =>
      cases h
      have hfault := peek_fault hpeek
      rw [hfault]
      simp [hc, Source.breakAt]
    . simp at h
  . simp at h

theorem bump_lt {c : Char} (h : s.bump = (.ok (some c), s')) :
    s'.cursor.input.length < s.cursor.input.length := by
  rw [bump_char h]
  exact Nat.lt_succ_self _

theorem bump_of_char {c : Char} {rest : Source} {line : Nat} {read : Option Char}
    (hc : s.cursor = ⟨.char c :: rest, line⟩) (h : s.bump = (.ok read, s')) : s'.cursor = ⟨rest, line⟩ := by
  cases read with
  | none =>
    obtain ⟨line, hs, _⟩ := bump_end h
    simp [hs] at hc
  | some d =>
    rw [bump_char h] at hc
    simp_all [cursor]

theorem taken_char {ahead : Scanner} {c : Char} {read : Option Char} (hpeek : s.peek = (.ok (some c), ahead))
    (hbump : ahead.bump = (.ok read, s')) : s.cursor = ⟨.char c :: s'.cursor.input, s'.cursor.line⟩ := by
  obtain ⟨rest, line, hs, hahead⟩ := peek_char hpeek
  rw [hs, bump_of_char hahead hbump]

theorem taken_lt {ahead : Scanner} {c : Char} {read : Option Char} (hpeek : s.peek = (.ok (some c), ahead))
    (hbump : ahead.bump = (.ok read, s')) : s'.cursor.input.length < s.cursor.input.length := by
  rw [taken_char hpeek hbump]
  exact Nat.lt_succ_self _

theorem counted_lt {after : Scanner} {c : Char} (hlt : after.cursor.input.length < s.cursor.input.length)
    (hcount : after.countLineBreak c = (.ok (), s')) :
    s'.cursor.input.length < s.cursor.input.length := by
  rw [countLineBreak_ok hcount]
  exact hlt

end

-- The run of whitespace from here on. `taken` holds what has been taken of it, the last character first.
def whitespaceRun (config : Config) (taken : List Char) (s : Scanner) : Step (List Char) :=
  match hpeek : s.peek with
  | (.error error, ahead) => (.error error, ahead)
  | (.ok none, ahead) => (.ok taken.reverse, ahead)
  | (.ok (some c), ahead) =>
    if config.isWhitespace c then
      match hbump : ahead.bump with
      | (.error error, after) => (.error error, after)
      | (.ok _, after) =>
        match hcount : after.countLineBreak c with
        | (.error error, next) => (.error error, next)
        | (.ok (), next) =>
          have : next.cursor.input.length < s.cursor.input.length := counted_lt (taken_lt hpeek hbump) hcount
          whitespaceRun config (c :: taken) next
    else (.ok taken.reverse, ahead)
termination_by s.cursor.input.length

def whitespace (config : Config) (s : Scanner) : Step Token :=
  (whitespaceRun config [] s).map fun text =>
    { kind := .whitespace, text := String.ofList text, line := s.line }

def decimal (text : List Char) : Binary64 :=
  Binary64.ofDecimal (Config.digitsValue (text.filter (· ≠ '.'))) (text.dropWhile (· ≠ '.')).tail.length

def numberRun (seenPoint : Bool) (taken : List Char) (s : Scanner) : Step (List Char) :=
  match hbump : s.bump with
  | (.error error, after) => (.error error, after)
  | (.ok none, after) => (.ok taken.reverse, after)
  | (.ok (some c), after) =>
    have : after.cursor.input.length < s.cursor.input.length := bump_lt hbump
    if c.isDigit then numberRun seenPoint (c :: taken) after
    else if c = '.' && !seenPoint then numberRun true (c :: taken) after
    else (.ok taken.reverse, after.unread c)
termination_by s.cursor.input.length

def number (config : Config) (s : Scanner) : Step Token :=
  (numberRun false [] s).map fun text =>
    { kind := if config.numbersAsWords then .word else .number
      text := String.ofList text
      line := s.line
      value := if config.parseNumbers then decimal text else .zero }

/-- A string up to the quote that closes it, with that quote also where the stream ends before it. -/
def stringRun (quote : Char) (escape previous : Option Char) (taken : List Char) (s : Scanner) :
    Step (List Char) :=
  match hbump : s.bump with
  | (.error error, after) => (.error error, after)
  | (.ok none, after) => (.ok (quote :: taken).reverse, after)
  | (.ok (some c), after) =>
    if c = quote && (escape.isNone || previous ≠ escape) then (.ok (c :: taken).reverse, after)
    else
      match hcount : after.countLineBreak c with
      | (.error error, next) => (.error error, next)
      | (.ok (), next) =>
        have : next.cursor.input.length < s.cursor.input.length := counted_lt (bump_lt hbump) hcount
        stringRun quote escape (some c) (c :: taken) next
termination_by s.cursor.input.length

def literalString (config : Config) (s : Scanner) : Step Token :=
  match s.bump with
  | (.error error, after) => (.error error, after)
  | (.ok none, after) => (.ok (.endOfStream s.line), after)
  | (.ok (some quote), after) =>
    (stringRun quote config.activeEscape none [quote] after).map fun text =>
      { kind := .string, text := String.ofList text, line := s.line }

def newline (s : Scanner) : Step Token :=
  let token : Token := { kind := .newline, text := "\n", line := s.line }
  match s.bump with
  | (.error error, after) => (.error error, after)
  | (.ok c, after) =>
    if c = some '\r' then
      match after.bump with
      | (.error error, after) => (.error error, after)
      | (.ok none, after) => (.ok token, after.newLine)
      | (.ok (some next), after) =>
        (.ok token, if next = '\n' then after.newLine else (after.unread next).newLine)
    else (.ok token, after.newLine)

def lineCommentRun (taken : List Char) (s : Scanner) : Step (List Char) :=
  match hpeek : s.peek with
  | (.error error, ahead) => (.error error, ahead)
  | (.ok none, ahead) => (.ok taken.reverse, ahead)
  | (.ok (some c), ahead) =>
    if Source.isLineBreak c then (.ok taken.reverse, ahead)
    else
      match hbump : ahead.bump with
      | (.error error, after) => (.error error, after)
      | (.ok _, after) =>
        have : after.cursor.input.length < s.cursor.input.length := taken_lt hpeek hbump
        lineCommentRun (c :: taken) after
termination_by s.cursor.input.length

def blockCommentRun (closer taken : List Char) (s : Scanner) : Step (List Char) :=
  match heat : s.eat closer with
  | (.error error, after) => (.error error, after)
  | (.ok true, after) => (.ok (taken.reverse ++ closer), after)
  | (.ok false, ahead) =>
    match hbump : ahead.bump with
    | (.error error, after) => (.error error, after)
    | (.ok none, after) => (.ok taken.reverse, after)
    | (.ok (some c), after) =>
      match hcount : after.countLineBreak c with
      | (.error error, next) => (.error error, next)
      | (.ok (), next) =>
        have : next.cursor.input.length < s.cursor.input.length :=
          counted_lt ((eat_miss heat).2 ▸ bump_lt hbump) hcount
        blockCommentRun closer (c :: taken) next
termination_by s.cursor.input.length

def commentBody (opener : List Char) (style : CommentStyle) (line : Nat) (s : Scanner) : Step Token :=
  match style with
  | .line =>
    (lineCommentRun opener.reverse s).map fun text =>
      { kind := .lineComment, text := String.ofList text, line }
  | .block closer =>
    (blockCommentRun closer opener.reverse s).map fun text =>
      { kind := .blockComment, text := String.ofList text, line }

def comment (config : Config) (first : Char) (s : Scanner) : Step (Option Token) :=
  go s (config.openers.filter fun opener => opener.1.head? = some first)
where
  go (s : Scanner) : List (List Char × CommentStyle) → Step (Option Token)
    | [] => (.ok none, s)
    | (opener, style) :: openers =>
      match s.eat opener with
      | (.error error, after) => (.error error, after)
      | (.ok true, after) => (commentBody opener style s.line after).map some
      | (.ok false, after) => go after openers

-- The first character of a word may be any, and is not looked at.
def wordEnds (config : Config) (taken : List Char) (c : Char) (s : Scanner) : Step Bool :=
  if taken.isEmpty then (.ok false, s) else s.endsWord config c

theorem wordEnds_false {config : Config} {taken : List Char} {c : Char} {s behind : Scanner} {rest : Source}
    (hc : s.cursor.input = .char c :: rest) (h : wordEnds config taken c s = (.ok false, behind)) :
    behind.cursor = s.cursor := by
  unfold wordEnds at h
  split at h
  . cases h
    rfl
  . exact (endsWord_ok hc h).2

section

variable {config : Config} {taken : List Char} {c : Char} {s ahead behind after : Scanner} {read : Option Char}

theorem wordEnds_behind (hpeek : s.peek = (.ok (some c), ahead))
    (hends : wordEnds config taken c ahead = (.ok false, behind)) :
    ∃ rest line, s.cursor = ⟨.char c :: rest, line⟩ ∧ behind.cursor = ⟨.char c :: rest, line⟩ := by
  obtain ⟨rest, line, hs, hahead⟩ := peek_char hpeek
  refine ⟨rest, line, hs, ?_⟩
  rw [wordEnds_false (congrArg Cursor.input hahead) hends, hahead]

theorem word_char (hpeek : s.peek = (.ok (some c), ahead))
    (hends : wordEnds config taken c ahead = (.ok false, behind)) (hbump : behind.bump = (.ok read, after)) :
    s.cursor = ⟨.char c :: after.cursor.input, after.cursor.line⟩ := by
  obtain ⟨rest, line, hs, hbehind⟩ := wordEnds_behind hpeek hends
  rw [hs, bump_of_char hbehind hbump]

theorem word_lt (hpeek : s.peek = (.ok (some c), ahead))
    (hends : wordEnds config taken c ahead = (.ok false, behind)) (hbump : behind.bump = (.ok read, after)) :
    after.cursor.input.length < s.cursor.input.length := by
  rw [word_char hpeek hends hbump]
  exact Nat.lt_succ_self _

end

def wordRun (config : Config) (taken : List Char) (s : Scanner) : Step (List Char) :=
  match hpeek : s.peek with
  | (.error error, ahead) => (.error error, ahead)
  | (.ok none, ahead) => (.ok taken.reverse, ahead)
  | (.ok (some c), ahead) =>
    match hends : wordEnds config taken c ahead with
    | (.error error, after) => (.error error, after)
    | (.ok true, after) => (.ok taken.reverse, after)
    | (.ok false, behind) =>
      match hbump : behind.bump with
      | (.error error, after) => (.error error, after)
      | (.ok _, after) =>
        have : after.cursor.input.length < s.cursor.input.length := word_lt hpeek hends hbump
        wordRun config (c :: taken) after
termination_by s.cursor.input.length

def word (config : Config) (s : Scanner) : Step Token :=
  (wordRun config [] s).map fun text => { kind := .word, text := String.ofList text, line := s.line }

def lexeme (config : Config) (s : Scanner) : Step Token :=
  match s.peek with
  | (.error error, after) => (.error error, after)
  | (.ok none, after) => (.ok (.endOfStream s.line), after)
  | (.ok (some c), ahead) =>
    if config.isWhitespace c then whitespace config ahead
    else if c.isDigit then number config ahead
    else if config.isQuote c then literalString config ahead
    else if Source.isLineBreak c then newline ahead
    else
      match comment config c ahead with
      | (.error error, after) => (.error error, after)
      | (.ok (some token), after) => (.ok token, after)
      | (.ok none, after) => word config after

end Scanner

end TokenGrammar
