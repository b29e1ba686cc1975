import Mathlib.Data.List.TakeWhile
import TokenGrammar.Scanner
import TokenGrammar.Proofs.Token.Lines
import TokenGrammar.Proofs.Token.Terminator
import TokenGrammar.Proofs.Token.Variation

/-!
A scanner that takes characters, puts back what it took too far and counts lines as it goes finds the token
that `Config.lexeme` splits off the source, leaves the same characters and the same line, and fails where it
fails (`Scanner.view_lexeme`); so do whole scans (`Scanner.view_scan`) and any number of them
(`Scanner.answers_scan`). A loop of the scanner is compared with the part of the source that it takes by its own
recursion, one case for each way out.
-/

namespace TokenGrammar

namespace Source

theorem takeRun_nil (p : Char → Bool) : takeRun p [] = ([], []) :=
  takeUntil_nil _

theorem takeRun_fault (p : Char → Bool) (error : ReadError) (rest : Source) :
    takeRun p (.fault error :: rest) = ([], .fault error :: rest) :=
  takeUntil_fault _ error rest

theorem takeRun_cons (p : Char → Bool) (c : Char) (rest : Source) :
    takeRun p (.char c :: rest) =
      if p c then (c :: (takeRun p rest).1, (takeRun p rest).2) else ([], .char c :: rest) := by
  unfold takeRun
  rw [takeUntil_cons]
  cases hp : p c <;> simp [startsWith, hp]

theorem takeUntil_of_stop {stop : Source → Bool} {input : Source} (h : stop input = true) :
    takeUntil stop input = ([], input) := by
  cases input with
  | nil => apply takeUntil_nil
  | cons read rest =>
    cases read with
    | fault error => apply takeUntil_fault
    | char c => rw [takeUntil_cons, if_pos h]

end Source

namespace Config

theorem numeral_digit {c : Char} (hc : c.isDigit = true) (rest : Source) :
    numeral (.char c :: rest) = (c :: (numeral rest).1, (numeral rest).2) := by
  unfold numeral
  rw [Source.takeRun_cons, if_pos hc]
  dsimp only
  split <;> rfl

theorem numeral_point (rest : Source) :
    numeral (.char '.' :: rest) =
      ([], some (rest.takeRun Char.isDigit).1, (rest.takeRun Char.isDigit).2) := by
  unfold numeral
  rw [Source.takeRun_cons, if_neg (by decide)]
  rfl

theorem numeral_other {c : Char} (hc : c.isDigit = false) (hp : c ≠ '.') (rest : Source) :
    numeral (.char c :: rest) = ([], none, .char c :: rest) := by
  unfold numeral
  rw [Source.takeRun_cons, if_neg (by simp [hc])]
  dsimp only
  split
  . next heq => simp_all
  . rfl

theorem numeral_digits {input rest : Source} {whole : List Char} {places : Option (List Char)}
    (h : numeral input = (whole, places, rest)) : ∀ c ∈ whole ++ places.getD [], c.isDigit = true := by
  intro c hc
  unfold numeral at h
  dsimp only at h
  split at h
  . simp only [Prod.mk.injEq] at h
    obtain ⟨rfl, rfl, _⟩ := h
    rcases List.mem_append.1 hc with hc | hc
    . exact Source.mem_takeRun hc
    . exact Source.mem_takeRun hc
  . simp only [Prod.mk.injEq] at h
    obtain ⟨rfl, rfl, _⟩ := h
    exact Source.mem_takeRun (by simpa using hc)

end Config

namespace Scanner

variable {s after : Scanner}

def view {α : Type} (step : Step α) : Except ReadError α × Cursor :=
  (step.1, step.2.cursor)

def ending {α : Type} (value : α) (rest : Source) (line : Nat) : Except ReadError α × Cursor :=
  match rest with
  | .fault error :: rest => (.error error, ⟨rest, line⟩)
  | rest => (.ok value, ⟨rest, line⟩)

theorem view_map {α β : Type} (f : α → β) (step : Step α) :
    view (step.map f) = ((view step).1.map f, (view step).2) := rfl

theorem finish_eq_map {α : Type} (token : α → Token) (value : α) (rest : Source) (line : Nat) :
    Scan.finish (token value) rest line =
      ((ending value rest line).1.map token, (ending value rest line).2) := by
  cases rest with
  | nil => rfl
  | cons read rest => cases read <;> rfl

theorem bump_ne_fault {c : Char} {rest : Source} {line : Nat} {error : ReadError}
    (hc : s.cursor = ⟨.char c :: rest, line⟩) : s.bump ≠ (.error error, after) := by
  intro h
  rw [bump_fault h] at hc
  simp at hc

theorem view_whitespaceRun (config : Config) (taken : List Char) (s : Scanner) :
    view (whitespaceRun config taken s) =
      ending (taken.reverse ++ (s.cursor.input.takeRun config.isWhitespace).1)
        (s.cursor.input.takeRun config.isWhitespace).2
        (s.cursor.line +
          s.cursor.input.lineBreaks (s.cursor.input.takeRun config.isWhitespace).1.length) := by
  fun_induction whitespaceRun config taken s with
  | case1 taken s error ahead hpeek =>
    rw [peek_fault hpeek]
    simp [view, ending, Source.takeRun_fault, Source.lineBreaks_zero]
  | case2 taken s ahead hpeek =>
    obtain ⟨line, hs, hahead⟩ := peek_end hpeek
    simp [view, ending, hs, hahead, Source.takeRun_nil, Source.lineBreaks_zero]
  | case3 taken s c ahead hpeek hc error after hbump =>
    obtain ⟨rest, line, _, hahead⟩ := peek_char hpeek
    exact absurd hbump (bump_ne_fault hahead)
  | case4 taken s c ahead hpeek hc read after hbump error next hcount =>
    obtain ⟨hafter, hbreak⟩ := countLineBreak_fault hcount
    rw [hafter] at hbreak
    rw [taken_char hpeek hbump, hafter]
    simp [view, ending, Source.takeRun_cons, hc, Source.takeRun_fault, Source.lineBreaks_cons, hbreak,
      Source.lineBreaks_zero]
  | case5 taken s c ahead hpeek hc read after hbump next hcount _ ih =>
    rw [ih, countLineBreak_ok hcount, taken_char hpeek hbump]
    simp [Source.takeRun_cons, hc, Source.lineBreaks_cons, Nat.add_assoc]
  | case6 taken s c ahead hpeek hc =>
    obtain ⟨rest, line, hs, hahead⟩ := peek_char hpeek
    simp [view, ending, hs, hahead, Source.takeRun_cons, hc, Source.lineBreaks_zero]

theorem view_whitespace (config : Config) (s : Scanner) :
    view (whitespace config s) = config.whitespaceLexeme s.cursor := by
  unfold whitespace
  rw [view_map, view_whitespaceRun]
  exact (finish_eq_map _ _ _ _).symm

theorem view_numberRun_places (taken : List Char) (s : Scanner) :
    view (numberRun true taken s) =
      ending (taken.reverse ++ (s.cursor.input.takeRun Char.isDigit).1)
        (s.cursor.input.takeRun Char.isDigit).2 s.cursor.line := by
  generalize hseen : true = seen
  fun_induction numberRun seen taken s with
  | case1 seen taken s error after hbump =>
    rw [bump_fault hbump]
    simp [view, ending, Source.takeRun_fault]
  | case2 seen taken s after hbump =>
    obtain ⟨line, hs, hafter⟩ := bump_end hbump
    simp [view, ending, hs, hafter, Source.takeRun_nil]
  | case3 seen taken s c after hbump _ hc ih =>
    rw [ih hseen, bump_char hbump]
    simp [Source.takeRun_cons, hc]
  | case4 seen taken s c after hbump _ hc hpoint => simp [← hseen] at hpoint
  | case5 seen taken s c after hbump _ hc hpoint =>
    rw [bump_char hbump]
    simp [view, ending, cursor_unread, Source.takeRun_cons, hc]

theorem view_numberRun (taken : List Char) (s : Scanner) :
    view (numberRun false taken s) =
      ending
        (taken.reverse ++ Config.numeralText (Config.numeral s.cursor.input).1 (Config.numeral s.cursor.input).2.1)
        (Config.numeral s.cursor.input).2.2 s.cursor.line := by
  generalize hseen : false = seen
  fun_induction numberRun seen taken s with
  | case1 seen taken s error after hbump =>
    rw [bump_fault hbump]
    simp [view, ending, Config.numeral, Source.takeRun_fault]
  | case2 seen taken s after hbump =>
    obtain ⟨line, hs, hafter⟩ := bump_end hbump
    simp [view, ending, hs, hafter, Config.numeral, Source.takeRun_nil, Config.numeralText]
  | case3 seen taken s c after hbump _ hc ih =>
    rw [ih hseen, bump_char hbump, Config.numeral_digit hc]
    cases (Config.numeral after.cursor.input).2.1 <;> simp [Config.numeralText]
  | case4 seen taken s c after hbump _ hc hpoint ih =>
    obtain rfl : c = '.' := by simp_all
    rw [view_numberRun_places, bump_char hbump, Config.numeral_point]
    simp [Config.numeralText]
  | case5 seen taken s c after hbump _ hc hpoint =>
    rw [bump_char hbump, Config.numeral_other (by simpa using hc) (by simp_all)]
    simp [view, ending, cursor_unread, Config.numeralText]

theorem decimal_numeralText {whole : List Char} {places : Option (List Char)}
    (hdigits : ∀ c ∈ whole ++ places.getD [], c.isDigit = true) :
    decimal (Config.numeralText whole places) =
      Binary64.ofDecimal (Config.digitsValue (whole ++ places.getD [])) (places.getD []).length := by
  have hpoint : ∀ c ∈ whole ++ places.getD [], decide (c ≠ '.') = true := by
    intro c hc
    rw [decide_eq_true_eq]
    rintro rfl
    exact absurd (hdigits '.' hc) (by decide)
  have hwhole := fun c hc => hpoint c (List.mem_append_left _ hc)
  unfold decimal
  cases places with
  | none =>
    rw [Config.numeralText, List.filter_eq_self.2 hwhole, List.dropWhile_eq_nil_iff.2 hwhole]
    simp
  | some places =>
    have hplaces : ∀ c ∈ places, decide (c ≠ '.') = true := fun c hc => hpoint c (List.mem_append_right _ hc)
    rw [Config.numeralText, List.filter_append, List.filter_eq_self.2 hwhole, List.dropWhile_append_of_pos hwhole,
      List.filter_cons_of_neg (by decide), List.filter_eq_self.2 hplaces]
    rfl

theorem view_number (config : Config) (s : Scanner) : view (number config s) = config.numberLexeme s.cursor := by
  unfold number
  rw [view_map, view_numberRun]
  unfold Config.numberLexeme
  obtain ⟨whole, places, rest, hn⟩ :
      ∃ whole places rest, Config.numeral s.cursor.input = (whole, places, rest) := ⟨_, _, _, rfl⟩
  simp only [hn]
  rw [← decimal_numeralText (Config.numeral_digits hn)]
  cases places <;> exact (finish_eq_map _ _ _ _).symm

theorem view_stringRun (quote : Char) (escape previous : Option Char) (taken : List Char) (s : Scanner) :
    view (stringRun quote escape previous taken s) =
      ((Config.stringBody.go quote escape previous [] s.cursor.input).2.next.1.map fun _ =>
          taken.reverse ++ (Config.stringBody.go quote escape previous [] s.cursor.input).1 ++ [quote],
        ⟨(Config.stringBody.go quote escape previous [] s.cursor.input).2.next.2,
          s.cursor.line + s.cursor.input.lineBreaks
            (Config.stringBody.go quote escape previous [] s.cursor.input).1.length⟩) := by
  fun_induction stringRun quote escape previous taken s with
  | case1 previous taken s error after hbump =>
    rw [bump_fault hbump]
    simp [view, Config.stringBody.go, Source.next, Source.lineBreaks_zero, Except.map]
  | case2 previous taken s after hbump =>
    obtain ⟨line, hs, hafter⟩ := bump_end hbump
    simp [view, hs, hafter, Config.stringBody.go, Source.next, Source.lineBreaks_zero, Except.map]
  | case3 previous taken s c after hbump hcloses =>
    rw [bump_char hbump, Config.stringBody_go_cons, if_pos hcloses]
    simp_all [view, Source.next, Source.lineBreaks_zero, Except.map]
  | case4 previous taken s c after hbump hcloses error next hcount =>
    obtain ⟨hafter, hbreak⟩ := countLineBreak_fault hcount
    rw [hafter] at hbreak
    rw [bump_char hbump, Config.stringBody_go_cons, if_neg hcloses, hafter]
    simp [view, Config.stringBody.go, Source.next, Source.lineBreaks_cons, hbreak, Source.lineBreaks_zero,
      Except.map]
  | case5 previous taken s c after hbump hcloses next hcount _ ih =>
    rw [ih, countLineBreak_ok hcount, bump_char hbump, Config.stringBody_go_cons, if_neg hcloses]
    simp [Source.lineBreaks_cons, Nat.add_assoc]

theorem bump_eq {c : Char} {rest : Source} {line : Nat} (hs : s.cursor = ⟨.char c :: rest, line⟩) :
    ∃ after, s.bump = (.ok (some c), after) ∧ after.cursor = ⟨rest, line⟩ := by
  rcases hbump : s.bump with ⟨error | read, after⟩
  . exact absurd hbump (bump_ne_fault hs)
  . refine ⟨after, ?_, bump_of_char hs hbump⟩
    cases read with
    | none =>
      obtain ⟨line, hend, _⟩ := bump_end hbump
      simp [hend] at hs
    | some d =>
      rw [bump_char hbump] at hs
      simp_all

theorem view_literalString {quote : Char} {rest : Source} {line : Nat} (hs : s.cursor = ⟨.char quote :: rest, line⟩)
    (config : Config) : view (literalString config s) = config.stringLexeme quote rest line := by
  obtain ⟨after, hbump, hafter⟩ := bump_eq hs
  have hline : s.line = line := congrArg Cursor.line hs
  simp only [literalString, hbump]
  rw [view_map, view_stringRun, hafter, hline]
  unfold Config.stringLexeme Config.stringBody
  dsimp only
  generalize Config.stringBody.go quote config.activeEscape none [] rest = body
  obtain ⟨body, next⟩ := body
  cases next with
  | nil => rfl
  | cons read next => cases read <;> rfl

theorem view_newline {c : Char} {rest : Source} {line : Nat} (hs : s.cursor = ⟨.char c :: rest, line⟩) :
    view (newline s) = Config.newlineLexeme c rest line := by
  obtain ⟨after, hbump, hafter⟩ := bump_eq hs
  have hline : s.line = line := congrArg Cursor.line hs
  simp only [newline, hbump, hline, Option.some.injEq]
  unfold Config.newlineLexeme
  dsimp only
  split
  . rcases hnext : after.bump with ⟨error | _ | d, last⟩
    . rw [bump_fault hnext, Cursor.mk.injEq] at hafter
      simp [view, cursor, ← hafter.1, ← hafter.2]
    . obtain ⟨line', hend, hlast⟩ := bump_end hnext
      rw [hend, Cursor.mk.injEq] at hafter
      simp [view, cursor_newLine, hlast, ← hafter.1, ← hafter.2]
    . rw [bump_char hnext, Cursor.mk.injEq] at hafter
      by_cases hd : d = '\n' <;>
        simp [view, cursor_newLine, cursor_unread, hd, ← hafter.1, ← hafter.2]
  . rw [view, cursor_newLine, hafter]

theorem view_lineCommentRun (taken : List Char) (s : Scanner) :
    view (lineCommentRun taken s) =
      ending (taken.reverse ++ (s.cursor.input.takeRun fun c => !Source.isLineBreak c).1)
        (s.cursor.input.takeRun fun c => !Source.isLineBreak c).2 s.cursor.line := by
  fun_induction lineCommentRun taken s with
  | case1 taken s error ahead hpeek =>
    rw [peek_fault hpeek]
    simp [view, ending, Source.takeRun_fault]
  | case2 taken s ahead hpeek =>
    obtain ⟨line, hs, hahead⟩ := peek_end hpeek
    simp [view, ending, hs, hahead, Source.takeRun_nil]
  | case3 taken s c ahead hpeek hc =>
    obtain ⟨rest, line, hs, hahead⟩ := peek_char hpeek
    simp [view, ending, hs, hahead, Source.takeRun_cons, hc]
  | case4 taken s c ahead hpeek hc error after hbump =>
    obtain ⟨rest, line, _, hahead⟩ := peek_char hpeek
    exact absurd hbump (bump_ne_fault hahead)
  | case5 taken s c ahead hpeek hc read after hbump _ ih =>
    rw [ih, taken_char hpeek hbump]
    simp [Source.takeRun_cons, hc]

def restOfBlock (closer taken : List Char) (cursor : Cursor) : Except ReadError (List Char) × Cursor :=
  let (text, rest) := cursor.input.takeUntil fun rest => rest.probe closer ≠ .miss
  let line := cursor.line + cursor.input.lineBreaks text.length
  match rest.probe closer with
  | .hit rest => (.ok (taken.reverse ++ text ++ closer), ⟨rest, line⟩)
  | .miss => (.ok (taken.reverse ++ text), ⟨rest, line⟩)
  | .fault error rest => (.error error, ⟨rest, line⟩)

section

variable {closer taken : List Char} {input rest : Source} {line : Nat}

theorem restOfBlock_hit (h : input.probe closer = .hit rest) :
    restOfBlock closer taken ⟨input, line⟩ = (.ok (taken.reverse ++ closer), ⟨rest, line⟩) := by
  simp [restOfBlock, Source.takeUntil_of_stop, h, Source.lineBreaks_zero]

theorem restOfBlock_fault {error : ReadError} (h : input.probe closer = .fault error rest) :
    restOfBlock closer taken ⟨input, line⟩ = (.error error, ⟨rest, line⟩) := by
  simp [restOfBlock, Source.takeUntil_of_stop, h, Source.lineBreaks_zero]

theorem restOfBlock_end (h : Source.probe closer [] = .miss) :
    restOfBlock closer taken ⟨[], line⟩ = (.ok taken.reverse, ⟨[], line⟩) := by
  simp [restOfBlock, Source.takeUntil_nil, h, Source.lineBreaks_zero]

theorem restOfBlock_cons {c : Char} (h : Source.probe closer (.char c :: rest) = .miss) :
    restOfBlock closer taken ⟨.char c :: rest, line⟩ =
      restOfBlock closer (c :: taken) ⟨rest, line + rest.breakAt c⟩ := by
  simp [restOfBlock, Source.takeUntil_cons, h, Source.lineBreaks_cons, Nat.add_assoc]

-- A closer that is missing has a first character, which a fault comes before.
theorem probe_of_miss (h : input.probe closer = .miss) (error : ReadError) (rest : Source) :
    Source.probe closer (.fault error :: rest) = .fault error rest := by
  cases closer with
  | nil => simp [Source.probe] at h
  | cons d closer => rfl

end

theorem view_blockCommentRun (closer taken : List Char) (s : Scanner) :
    view (blockCommentRun closer taken s) = restOfBlock closer taken s.cursor := by
  fun_induction blockCommentRun closer taken s with
  | case1 taken s error after heat =>
    obtain ⟨hprobe, hline⟩ := eat_fault heat
    rw [restOfBlock_fault hprobe, hline]
    rfl
  | case2 taken s after heat =>
    obtain ⟨hprobe, hline⟩ := eat_hit heat
    rw [restOfBlock_hit hprobe, hline]
    rfl
  | case3 taken s ahead heat error after hbump =>
    obtain ⟨hprobe, hahead⟩ := eat_miss heat
    rw [← hahead, bump_fault hbump, probe_of_miss hprobe] at hprobe
    simp at hprobe
  | case4 taken s ahead heat after hbump =>
    obtain ⟨hprobe, hahead⟩ := eat_miss heat
    obtain ⟨line, hend, hafter⟩ := bump_end hbump
    rw [← hahead, hend] at hprobe ⊢
    rw [restOfBlock_end hprobe, view, hafter]
  | case5 taken s ahead heat c after hbump error next hcount =>
    obtain ⟨hprobe, hahead⟩ := eat_miss heat
    obtain ⟨hafter, hbreak⟩ := countLineBreak_fault hcount
    rw [← hahead, bump_char hbump] at hprobe ⊢
    rw [restOfBlock_cons hprobe, hbreak, hafter, restOfBlock_fault (probe_of_miss hprobe error _)]
    rfl
  | case6 taken s ahead heat c after hbump next hcount _ ih =>
    obtain ⟨hprobe, hahead⟩ := eat_miss heat
    rw [← hahead, bump_char hbump] at hprobe ⊢
    rw [ih, countLineBreak_ok hcount, restOfBlock_cons hprobe]

theorem commentLexeme_block (opener closer : List Char) (body : Source) (line : Nat) :
    Config.commentLexeme opener (.block closer) body line =
      ((restOfBlock closer opener.reverse ⟨body, line⟩).1.map fun text =>
          { kind := .blockComment, text := String.ofList text, line },
        (restOfBlock closer opener.reverse ⟨body, line⟩).2) := by
  unfold Config.commentLexeme restOfBlock
  dsimp only
  generalize (body.takeUntil fun rest => rest.probe closer ≠ .miss) = part
  obtain ⟨text, rest⟩ := part
  rw [List.reverse_reverse]
  dsimp only
  cases rest.probe closer <;> rfl

theorem view_commentBody (opener : List Char) (style : CommentStyle) (s : Scanner) :
    view (commentBody opener style s.line s) =
      Config.commentLexeme opener style s.cursor.input s.cursor.line := by
  cases style with
  | line =>
    simp only [commentBody, view_map, view_lineCommentRun, List.reverse_reverse]
    exact (finish_eq_map _ _ _ _).symm
  | block closer =>
    rw [commentBody, view_map, view_blockCommentRun, commentLexeme_block]
    rfl

def ofOpening (before : Cursor) : Opening → Except ReadError (Option Token) × Cursor
  | .none => (.ok none, before)
  | .comment opener style body =>
    ((Config.commentLexeme opener style body before.line).1.map some,
      (Config.commentLexeme opener style body before.line).2)
  | .fault error rest => (.error error, ⟨rest, before.line⟩)

theorem view_comment_go (s : Scanner) (openers : List (List Char × CommentStyle)) :
    view (comment.go s openers) = ofOpening s.cursor (Config.opening.go s.cursor.input openers) := by
  induction openers generalizing s with
  | nil => rfl
  | cons first openers ih =>
    obtain ⟨opener, style⟩ := first
    unfold comment.go Config.opening.go
    split
    . next heat =>
      obtain ⟨hprobe, hline⟩ := eat_fault heat
      rw [hprobe, ofOpening, hline]
      rfl
    . next after heat =>
      obtain ⟨hprobe, hline⟩ := eat_hit heat
      rw [hprobe, view_map, ofOpening, hline]
      have hline' : s.line = after.line := hline
      rw [hline', view_commentBody]
    . next after heat =>
      obtain ⟨hprobe, hafter⟩ := eat_miss heat
      rw [hprobe, ih, hafter]

theorem view_comment {c : Char} {rest : Source} {line : Nat} (hs : s.cursor = ⟨.char c :: rest, line⟩)
    (config : Config) :
    view (comment config c s) = ofOpening s.cursor (config.opening s.cursor.input) := by
  unfold comment
  rw [view_comment_go, hs, Config.opening_go_filter config.openers_ne_nil]
  rfl

def restOfWord (config : Config) (taken : List Char) (cursor : Cursor) : Except ReadError (List Char) × Cursor :=
  let (text, rest) := cursor.input.takeUntil fun rest => config.wordStop rest ≠ .goesOn
  match config.wordStop rest with
  | .fault error rest => (.error error, ⟨rest, cursor.line⟩)
  | _ => (.ok (taken.reverse ++ text), ⟨rest, cursor.line⟩)

section

variable {config : Config} {taken : List Char} {input rest : Source} {line : Nat}

theorem restOfWord_ends (h : config.wordStop input = .ends) :
    restOfWord config taken ⟨input, line⟩ = (.ok taken.reverse, ⟨input, line⟩) := by
  simp [restOfWord, Source.takeUntil_of_stop, h]

theorem restOfWord_fault {error : ReadError} (h : config.wordStop input = .fault error rest) :
    restOfWord config taken ⟨input, line⟩ = (.error error, ⟨rest, line⟩) := by
  simp [restOfWord, Source.takeUntil_of_stop, h]

theorem restOfWord_goesOn {c : Char} (h : config.wordStop (.char c :: rest) = .goesOn) :
    restOfWord config taken ⟨.char c :: rest, line⟩ = restOfWord config (c :: taken) ⟨rest, line⟩ := by
  simp [restOfWord, Source.takeUntil_cons, h]

end

theorem wordEnds_of_ne_nil {taken : List Char} (h : taken ≠ []) (config : Config) (c : Char) (s : Scanner) :
    wordEnds config taken c s = s.endsWord config c := by
  simp [wordEnds, h]

theorem view_wordRun {taken : List Char} (htaken : taken ≠ []) (config : Config) (s : Scanner) :
    view (wordRun config taken s) = restOfWord config taken s.cursor := by
  fun_induction wordRun config taken s with
  | case1 taken s error ahead hpeek =>
    rw [peek_fault hpeek, restOfWord_fault rfl]
    rfl
  | case2 taken s ahead hpeek =>
    obtain ⟨line, hs, hahead⟩ := peek_end hpeek
    rw [hs, restOfWord_ends rfl, view, hahead]
  | case3 taken s c ahead hpeek error after hends =>
    obtain ⟨rest, line, hs, hahead⟩ := peek_char hpeek
    rw [wordEnds_of_ne_nil htaken] at hends
    obtain ⟨hstop, hline⟩ := endsWord_fault (congrArg Cursor.input hahead) hends
    rw [hahead] at hstop hline
    rw [hs, restOfWord_fault hstop, show line = after.cursor.line from hline]
    rfl
  | case4 taken s c ahead hpeek after hends =>
    obtain ⟨rest, line, hs, hahead⟩ := peek_char hpeek
    rw [wordEnds_of_ne_nil htaken] at hends
    obtain ⟨hstop, hafter⟩ := endsWord_ok (congrArg Cursor.input hahead) hends
    rw [hahead] at hstop hafter
    rw [hs, restOfWord_ends hstop, view, hafter]
  | case5 taken s c ahead hpeek behind hends error after hbump =>
    obtain ⟨rest, line, _, hbehind⟩ := wordEnds_behind hpeek hends
    exact absurd hbump (bump_ne_fault hbehind)
  | case6 taken s c ahead hpeek behind hends read after hbump _ ih =>
    obtain ⟨rest, line, hs, hahead⟩ := peek_char hpeek
    have hbehind := bump_of_char (wordEnds_false (congrArg Cursor.input hahead) hends ▸ hahead) hbump
    rw [wordEnds_of_ne_nil htaken] at hends
    obtain ⟨hstop, _⟩ := endsWord_ok (congrArg Cursor.input hahead) hends
    rw [hahead] at hstop
    rw [ih (List.cons_ne_nil c taken), hs, restOfWord_goesOn hstop, hbehind]

theorem wordRun_first {c : Char} {rest : Source} {line : Nat} (hs : s.cursor = ⟨.char c :: rest, line⟩)
    (config : Config) : ∃ after, wordRun config [] s = wordRun config [c] after ∧ after.cursor = ⟨rest, line⟩ := by
  fun_cases wordRun config [] s with
  | case1 error ahead hpeek => simp [peek_fault hpeek] at hs
  | case2 ahead hpeek =>
    obtain ⟨line, hend, _⟩ := peek_end hpeek
    simp [hend] at hs
  | case3 d ahead hpeek error after hends => simp [wordEnds] at hends
  | case4 d ahead hpeek after hends => simp [wordEnds] at hends
  | case5 d ahead hpeek behind hends error after hbump =>
    obtain ⟨rest, line, _, hbehind⟩ := wordEnds_behind hpeek hends
    exact absurd hbump (bump_ne_fault hbehind)
  | case6 d ahead hpeek behind hends read after hbump _ =>
    rw [word_char hpeek hends hbump, Cursor.mk.injEq, List.cons.injEq, Read.char.injEq] at hs
    obtain ⟨⟨rfl, hrest⟩, hline⟩ := hs
    exact ⟨after, rfl, by rw [← hrest, ← hline]⟩

theorem view_word {c : Char} {rest : Source} {line : Nat} (hs : s.cursor = ⟨.char c :: rest, line⟩)
    (config : Config) : view (word config s) = config.wordLexeme c rest line := by
  obtain ⟨after, hfirst, hafter⟩ := wordRun_first hs config
  have hline : s.line = line := congrArg Cursor.line hs
  unfold word
  rw [hfirst, view_map, view_wordRun (List.cons_ne_nil c []), hafter, hline]
  unfold restOfWord Config.wordLexeme
  dsimp only
  generalize (rest.takeUntil fun rest => config.wordStop rest ≠ .goesOn) = part
  obtain ⟨text, rest⟩ := part
  dsimp only
  cases config.wordStop rest <;> rfl

theorem view_lexeme (config : Config) (s : Scanner) : view (lexeme config s) = config.lexeme s.cursor := by
  unfold lexeme
  split
  . next hpeek =>
    rw [peek_fault hpeek]
    rfl
  . next hpeek =>
    obtain ⟨line, hs, hahead⟩ := peek_end hpeek
    have hline : s.line = line := congrArg Cursor.line hs
    rw [view, hs, hahead, hline]
    rfl
  . next c ahead hpeek =>
    obtain ⟨rest, line, hs, hahead⟩ := peek_char hpeek
    rw [hs]
    unfold Config.lexeme
    dsimp only
    split
    . rw [view_whitespace, hahead]
    split
    . rw [view_number, hahead]
    split
    . exact view_literalString hahead config
    split
    . exact view_newline hahead
    have hcomment := view_comment hahead config
    rw [hahead] at hcomment
    dsimp only at hcomment
    generalize comment config c ahead = result at hcomment ⊢
    cases hopening : config.opening (.char c :: rest) with
    | none =>
      rw [hopening, ofOpening] at hcomment
      rcases result with ⟨error | _ | token, after⟩
      . simp [view] at hcomment
      . exact view_word (congrArg Prod.snd hcomment) config
      . simp [view] at hcomment
    | fault error rest' =>
      rw [hopening, ofOpening] at hcomment
      rcases result with ⟨error | _ | token, after⟩ <;> simp_all [view]
    | comment opener style body =>
      rw [hopening, ofOpening] at hcomment
      rcases hbody : Config.commentLexeme opener style body line with ⟨error | token, cursor⟩ <;>
        rcases result with ⟨error | _ | token, after⟩ <;> simp_all [view, Except.map]

theorem lexeme_lt {config : Config} {token : Token} (h : lexeme config s = (.ok token, after))
    (hi : config.ignores token.kind) : after.cursor.input.length < s.cursor.input.length := by
  have hview := view_lexeme config s
  rw [h] at hview
  have hlt := config.lexeme_length_lt (Config.input_ne_nil_of_ignores hview.symm hi)
  rwa [← hview] at hlt

def scan (config : Config) (s : Scanner) : Step Token :=
  match h : lexeme config s with
  | (.error error, after) => (.error error, after)
  | (.ok token, after) =>
    if hi : config.ignores token.kind then
      have : after.cursor.input.length < s.cursor.input.length := lexeme_lt h hi
      scan config after
    else (.ok token, after)
termination_by s.cursor.input.length

theorem view_scan (config : Config) (s : Scanner) : view (scan config s) = config.scan s.cursor := by
  fun_induction scan config s with
  | case1 s error after hlexeme =>
    rw [config.scan_eq, ← view_lexeme, hlexeme]
    rfl
  | case2 s token after hlexeme hi _ ih =>
    rw [ih, config.scan_eq s.cursor, ← view_lexeme, hlexeme]
    simp [view, hi]
  | case3 s token after hlexeme hi =>
    rw [config.scan_eq, ← view_lexeme, hlexeme]
    simp [view, hi]

theorem fetch_eq {t : Tokenizer} (h : s.cursor = t.cursor) :
    t.fetch.1 = (scan t.config s).1.mapError .read ∧ t.fetch.2.cursor = (scan t.config s).2.cursor := by
  have hview := view_scan t.config s
  rw [h] at hview
  unfold Tokenizer.fetch
  rw [← hview]
  rcases scan t.config s with ⟨error | token, after⟩ <;> exact ⟨rfl, rfl⟩

def answers {σ : Type} (scan : σ → Except ReadError Token × σ) : Nat → σ → List (Except ReadError Token)
  | 0, _ => []
  | n + 1, state => (scan state).1 :: answers scan n (scan state).2

theorem answers_scan (config : Config) (n : Nat) (s : Scanner) :
    answers (scan config) n s = answers config.scan n s.cursor := by
  induction n generalizing s with
  | zero => rfl
  | succ n ih =>
    have hview := view_scan config s
    unfold answers
    rw [← hview, ih]
    rfl

-- What is put back counts: after the point the reader has delivered more than the number takes.
example : (scan {} (ofSource (.ofText "1.5.x"))).2.ahead.stack = ['.'] := by decide +kernel

end Scanner

end TokenGrammar
