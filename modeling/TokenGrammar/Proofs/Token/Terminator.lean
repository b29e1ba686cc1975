import TokenGrammar.Proofs.Token.Variation
import TokenGrammar.Proofs.Tokenizer.Spelling

/-!
Where strings and block comments end. Both take the shortest run of characters that ends them, and if there
is none, all that is left (`Config.lexeme_terminated`). For a comment this is not plain from its scan, which
looks for the closer at one place after the other: no place is passed over, so that a closer is found that
overlaps a part of itself.
-/

namespace TokenGrammar

namespace Source

structure Shortest (ends : List Char → Prop) (input : Source) (run : List Char) : Prop where
  begins : run.map .char <+: input
  holds : ends run
  least : ∀ other, other.map .char <+: input → ends other → run.length ≤ other.length

def Never (ends : List Char → Prop) (input : Source) : Prop :=
  ∀ run : List Char, run.map .char <+: input → ¬ends run

end Source

/--
A scan of what has been opened before `content`: the token has the shortest run that ends it, or else all
characters up to the end of the stream, and after them what is missing. A fault that comes before is
reported.
-/
inductive Scan.Terminated (ends : List Char → Prop) (content : Source) (missing : List Char)
    (token : List Char → Token) : Scan → Prop where
  | closed {run : List Char} {rest : Source} {line : Nat} :
    content = run.map .char ++ rest → content.Shortest ends run →
      Terminated ends content missing token (.ok (token run), ⟨rest, line⟩)
  | stream {run : List Char} {line : Nat} :
    content = run.map .char → content.Never ends →
      Terminated ends content missing token (.ok (token (run ++ missing)), ⟨[], line⟩)
  | fault {run : List Char} {error : ReadError} {rest : Source} {line : Nat} :
    content = run.map .char ++ .fault error :: rest → content.Never ends →
      Terminated ends content missing token (.error error, ⟨rest, line⟩)

theorem Scan.Terminated.eq_token {ends : List Char → Prop} {content : Source} {missing : List Char}
    {token : List Char → Token} {found : Token} {after : Cursor}
    (h : Scan.Terminated ends content missing token (.ok found, after)) : ∃ run, found = token run := by
  cases h with
  | closed => exact ⟨_, rfl⟩
  | stream => exact ⟨_, rfl⟩

namespace Source

theorem takeUntil_nil (stop : Source → Bool) : takeUntil stop [] = ([], []) := by
  rfl

theorem takeUntil_fault (stop : Source → Bool) (error : ReadError) (rest : Source) :
    takeUntil stop (.fault error :: rest) = ([], .fault error :: rest) := by
  rfl

theorem takeUntil_passes {stop : Source → Bool} {input : Source} {before after : List Char}
    (h : (takeUntil stop input).1 = before ++ after) (hne : after ≠ []) :
    stop (after.map .char ++ (takeUntil stop input).2) = false := by
  have hnil : ([] : List Char) ≠ before ++ after := by
    intro heq
    exact hne (List.append_eq_nil_iff.1 heq.symm).2
  induction input generalizing before with
  | nil => exact absurd h hnil
  | cons read rest ih =>
    cases read with
    | fault error => exact absurd h hnil
    | char c =>
      have hsplit := takeUntil_split stop (.char c :: rest)
      rw [takeUntil_cons] at h hsplit ⊢
      split at h
      . exact absurd h hnil
      . next hgo =>
        rw [if_neg hgo] at hsplit ⊢
        cases before with
        | nil =>
          rw [List.nil_append] at h
          rw [← h, ← hsplit]
          simpa using hgo
        | cons d before =>
          rw [List.cons_append, List.cons.injEq] at h
          apply ih h.2
          intro heq
          exact hne (List.append_eq_nil_iff.1 heq.symm).2

theorem takeUntil_stops {stop : Source → Bool} {input rest : Source} {c : Char}
    (h : (takeUntil stop input).2 = .char c :: rest) : stop (.char c :: rest) = true := by
  induction input with
  | nil => simp [takeUntil_nil] at h
  | cons read input ih =>
    cases read with
    | fault error => simp [takeUntil_fault] at h
    | char d =>
      rw [takeUntil_cons] at h
      split at h
      . next hstop =>
        rw [← h]
        exact hstop
      . exact ih h

theorem ne_nil_of_probe_miss {delimiter : List Char} {input : Source} (h : probe delimiter input = .miss) :
    delimiter ≠ [] := by
  rintro rfl
  simp [probe] at h

theorem takeUntil_probe_miss {closer : List Char} {body : Source}
    (h : probe closer (takeUntil (fun rest => rest.probe closer ≠ .miss) body).2 = .miss) :
    (takeUntil (fun rest => rest.probe closer ≠ .miss) body).2 = [] := by
  have hstops := @takeUntil_stops (fun rest => rest.probe closer ≠ .miss) body
  generalize (takeUntil (fun rest => rest.probe closer ≠ .miss) body).2 = rest at h hstops ⊢
  cases rest with
  | nil => rfl
  | cons read rest =>
    cases read with
    | char c => simp [h] at hstops
    | fault error => cases closer <;> simp [probe] at h

theorem probe_append (delimiter : List Char) (rest : Source) :
    probe delimiter (delimiter.map .char ++ rest) = .hit rest := by
  induction delimiter with
  | nil => rfl
  | cons d delimiter ih => simp [probe, ih]

theorem probe_eq_hit_iff {delimiter : List Char} {input rest : Source} :
    probe delimiter input = .hit rest ↔ input = delimiter.map .char ++ rest := by
  constructor
  . exact probe_hit_split
  . rintro rfl
    apply probe_append

theorem probe_fault_split {delimiter : List Char} {input rest : Source} {error : ReadError}
    (h : probe delimiter input = .fault error rest) :
    ∃ chars : List Char, input = chars.map .char ++ .fault error :: rest ∧
      chars.length < delimiter.length := by
  induction delimiter generalizing input with
  | nil => simp [probe] at h
  | cons d delimiter ih =>
    cases input with
    | nil => simp [probe] at h
    | cons read input =>
      cases read with
      | fault error' =>
        simp only [probe, Probe.fault.injEq] at h
        obtain ⟨rfl, rfl⟩ := h
        exact ⟨[], rfl, by simp⟩
      | char c =>
        unfold probe at h
        split at h
        . obtain ⟨chars, hsplit, hlt⟩ := ih h
          refine ⟨c :: chars, ?_, ?_⟩
          . rw [hsplit]
            rfl
          . simpa using hlt
        . simp at h

theorem prefix_of_begins {run chars : List Char} {rest : Source}
    (h : run.map .char <+: chars.map .char ++ rest) (hle : run.length ≤ chars.length) : run <+: chars := by
  have hmap : run.map Read.char <+: chars.map Read.char :=
    List.prefix_of_prefix_length_le h (List.prefix_append _ _) (by simpa using hle)
  obtain ⟨more, hmore⟩ := hmap
  obtain ⟨run', more', hsplit, hrun, _⟩ := List.map_eq_append_iff.1 hmore.symm
  obtain rfl := (List.map_inj_right fun _ _ => Read.char.inj).1 hrun
  exact ⟨more', hsplit.symm⟩

theorem length_le_of_begins {run chars : List Char} {rest : Source}
    (h : run.map .char <+: chars.map .char ++ rest) (hrest : ∀ c after, rest ≠ .char c :: after) :
    run.length ≤ chars.length := by
  induction chars generalizing run with
  | nil =>
    cases run with
    | nil => simp
    | cons c run =>
      obtain ⟨more, hmore⟩ := h
      exact absurd hmore.symm (hrest c _)
  | cons d chars ih =>
    cases run with
    | nil => simp
    | cons c run =>
      have hrun := ih (List.cons_prefix_cons.1 h).2
      simpa using hrun

end Source

namespace Config

def EndsString (config : Config) (quote : Char) (run : List Char) : Prop :=
  ∃ body, run = body ++ [quote] ∧ config.Closes body

structure OpensString (config : Config) (quote : Char) : Prop where
  notWhitespace : config.isWhitespace quote = false
  notDigit : quote.isDigit = false
  quote : config.isQuote quote = true

structure OpensBlock (config : Config) (opener closer : List Char) (body : Source) : Prop where
  delimiters : config.blockComment = some (String.ofList opener, String.ofList closer)
  head : ∃ c cs, opener = c :: cs ∧ config.isWhitespace c = false ∧ c.isDigit = false ∧
    config.isQuote c = false ∧ Source.isLineBreak c = false
  noLine : ∀ other, config.lineComment = some other → other ≠ "" →
    Source.probe other.toList (opener.map .char ++ body) = .miss

theorem StaysOpen.length_lt {config : Config} {quote : Char} {body : List Char}
    (h : config.StaysOpen quote body) {rest : Source} {run : List Char}
    (hbegins : run.map .char <+: body.map .char ++ rest) (hends : config.EndsString quote run) :
    body.length < run.length := by
  rw [← Nat.not_le]
  intro hle
  obtain ⟨before, rfl, hcloses⟩ := hends
  obtain ⟨after, hsplit⟩ := Source.prefix_of_begins hbegins hle
  apply h before after _ hcloses
  rw [← hsplit]
  simp

theorem stringLexeme_terminated (config : Config) (quote : Char) (content : Source) (line : Nat) :
    (config.stringLexeme quote content line).Terminated (config.EndsString quote) content [quote]
      fun run => { kind := .string, text := String.ofList (quote :: run), line } := by
  obtain ⟨body, rest, hbody⟩ : ∃ body rest, stringBody quote config.activeEscape content = (body, rest) :=
    ⟨_, _, rfl⟩
  have hnil : config.StaysOpen quote [] := by simp [StaysOpen]
  obtain ⟨hsplit, hopen, hclose⟩ := stringBody_go_split [] hnil content hbody
  simp only [List.reverse_nil, List.map_nil, List.nil_append] at hsplit
  unfold stringLexeme
  rw [hbody]
  -- Unless a character comes next, the source has no room for a quote after the body.
  have hnever (hrest : ∀ c after, rest ≠ .char c :: after) : content.Never (config.EndsString quote) := by
    intro run hbegins hends
    rw [hsplit] at hbegins
    have hlt := hopen.length_lt hbegins hends
    have hle := Source.length_le_of_begins hbegins hrest
    omega
  cases rest with
  | nil =>
    rw [List.append_nil] at hsplit
    exact .stream hsplit (hnever (by simp))
  | cons read rest =>
    cases read with
    | fault error => exact .fault hsplit (hnever (by simp))
    | char c =>
      obtain ⟨rfl, hcloses⟩ := hclose c rest rfl
      have hrun : content = (body ++ [c]).map .char ++ rest := by
        rw [hsplit]
        simp
      apply Scan.Terminated.closed hrun
      constructor
      . rw [hrun]
        apply List.prefix_append
      . exact ⟨body, rfl, hcloses⟩
      . intro other hbegins hends
        rw [hsplit] at hbegins
        have hlt := hopen.length_lt hbegins hends
        simp only [List.length_append, List.length_singleton]
        omega

theorem length_le_of_closer {closer run : List Char} {body : Source} (hbegins : run.map .char <+: body)
    (hends : closer <:+ run) :
    (body.takeUntil fun rest => rest.probe closer ≠ .miss).1.length + closer.length ≤ run.length := by
  obtain ⟨before, rfl⟩ := hends
  rw [List.length_append, Nat.add_le_add_iff_right, ← Nat.not_lt]
  intro hlt
  have hsplit := Source.takeUntil_split (fun rest => rest.probe closer ≠ .miss) body
  rw [hsplit, List.map_append] at hbegins
  have hbefore := (List.prefix_append _ _).trans hbegins
  obtain ⟨after, hafter⟩ := Source.prefix_of_begins hbefore (Nat.le_of_lt hlt)
  have hne : after ≠ [] := by
    rintro rfl
    rw [List.append_nil] at hafter
    rw [hafter] at hlt
    exact Nat.lt_irrefl _ hlt
  have hmiss := Source.takeUntil_passes hafter.symm hne
  obtain ⟨more, hmore⟩ := hbegins
  rw [← hafter, List.map_append, List.append_assoc, List.append_assoc, List.append_cancel_left_eq] at hmore
  rw [← hmore, Source.probe_append] at hmiss
  simp at hmiss

theorem blockComment_terminated (opener closer : List Char) (body : Source) (line : Nat) :
    (commentLexeme opener (.block closer) body line).Terminated (closer <:+ ·) body []
      fun run => { kind := .blockComment, text := String.ofList (opener ++ run), line } := by
  have hsplit := Source.takeUntil_split (fun rest => rest.probe closer ≠ .miss) body
  have hmiss := @Source.takeUntil_probe_miss closer body
  have hleast (run : List Char) := @length_le_of_closer closer run body
  unfold commentLexeme
  dsimp only
  generalize (body.takeUntil fun rest => rest.probe closer ≠ .miss) = part at hsplit hmiss hleast ⊢
  obtain ⟨text, rest⟩ := part
  dsimp only at hsplit hmiss hleast ⊢
  cases hprobe : rest.probe closer with
  | hit rest' =>
    have hrun : body = (text ++ closer).map .char ++ rest' := by
      rw [hsplit, Source.probe_hit_split hprobe]
      simp
    dsimp only
    rw [List.append_assoc]
    apply Scan.Terminated.closed hrun
    constructor
    . rw [hrun]
      apply List.prefix_append
    . apply List.suffix_append
    . intro other hbegins hends
      rw [List.length_append]
      exact hleast other hbegins hends
  | miss =>
    obtain rfl := hmiss hprobe
    have hclosed := List.length_pos_iff.2 (Source.ne_nil_of_probe_miss hprobe)
    have hnever : body.Never (closer <:+ ·) := by
      intro run hbegins hends
      have hge := hleast run hbegins hends
      rw [hsplit] at hbegins
      have hle := Source.length_le_of_begins hbegins (by simp)
      omega
    rw [List.append_nil] at hsplit
    dsimp only
    rw [← List.append_nil (opener ++ text), List.append_assoc]
    exact .stream hsplit hnever
  | fault error rest' =>
    obtain ⟨chars, hrest, hlt⟩ := Source.probe_fault_split hprobe
    have hrun : body = (text ++ chars).map .char ++ .fault error :: rest' := by
      rw [hsplit, hrest]
      simp
    apply Scan.Terminated.fault hrun
    intro run hbegins hends
    have hge := hleast run hbegins hends
    rw [hrun] at hbegins
    have hle := Source.length_le_of_begins hbegins (by simp)
    rw [List.length_append] at hle
    omega

theorem openers_eq (config : Config) :
    config.openers =
      (config.lineComment.toList.filter (· ≠ "")).map (fun opener => (opener.toList, .line)) ++
        (config.blockComment.toList.filter (·.1 ≠ "")).map fun (opener, closer) =>
          (opener.toList, .block closer.toList) := by
  have hempty (text : String) : (!text.toList.isEmpty) = decide (text ≠ "") := by
    rw [Bool.eq_iff_iff]
    simp
  unfold openers
  rw [List.filter_append, List.filter_map, List.filter_map]
  simp only [Function.comp_def, hempty]

theorem opening_go_singleton {input body : Source} {delimiter opener : List Char}
    {style style' : CommentStyle} :
    opening.go input [(delimiter, style)] = .comment opener style' body ↔
      delimiter = opener ∧ style = style' ∧ input = delimiter.map .char ++ body := by
  rw [← Source.probe_eq_hit_iff]
  unfold opening.go
  cases input.probe delimiter with
  | hit rest => simp
  | miss => simp [opening.go]
  | fault error rest => simp

theorem opening_go_blocks_iff {config : Config} {input body : Source} {opener closer : List Char} :
    opening.go input ((config.blockComment.toList.filter (·.1 ≠ "")).map fun (opener, closer) =>
        (opener.toList, .block closer.toList)) = .comment opener (.block closer) body ↔
      config.blockComment = some (String.ofList opener, String.ofList closer) ∧ opener ≠ [] ∧
        input = opener.map .char ++ body := by
  cases config.blockComment with
  | none => simp [opening.go]
  | some delimiters =>
    obtain ⟨first, last⟩ := delimiters
    have hdelimiters : some (first, last) = some (String.ofList opener, String.ofList closer) ↔
        first.toList = opener ∧ last.toList = closer := by
      simp [← String.toList_inj]
    rw [hdelimiters]
    by_cases hfirst : first = ""
    . simp only [hfirst, Option.toList_some, ne_eq, not_true_eq_false, decide_false, Bool.false_eq_true,
        not_false_eq_true, List.filter_cons_of_neg, List.filter_nil, List.map_nil, opening.go, reduceCtorEq,
        false_iff]
      rintro ⟨⟨rfl, _⟩, hne, _⟩
      exact hne rfl
    . simp only [hfirst, Option.toList_some, ne_eq, not_false_eq_true, decide_true,
        List.filter_cons_of_pos, List.filter_nil, List.map_cons, List.map_nil, opening_go_singleton,
        CommentStyle.block.injEq]
      constructor
      . rintro ⟨rfl, rfl, hinput⟩
        exact ⟨⟨rfl, rfl⟩, by simpa using hfirst, hinput⟩
      . rintro ⟨⟨rfl, rfl⟩, _, hinput⟩
        exact ⟨rfl, rfl, hinput⟩

theorem opening_eq_block_iff {config : Config} {input body : Source} {opener closer : List Char} :
    config.opening input = .comment opener (.block closer) body ↔
      config.blockComment = some (String.ofList opener, String.ofList closer) ∧ opener ≠ [] ∧
        input = opener.map .char ++ body ∧
        ∀ other, config.lineComment = some other → other ≠ "" → input.probe other.toList = .miss := by
  have hblocks := @opening_go_blocks_iff config input body opener closer
  unfold opening
  rw [openers_eq]
  cases config.lineComment with
  | none => simpa using hblocks
  | some other =>
    by_cases hother : other = ""
    . simpa [hother] using hblocks
    . simp only [hother, Option.toList_some, ne_eq, not_false_eq_true, decide_true,
        List.filter_cons_of_pos, List.filter_nil, List.map_cons, List.map_nil, List.cons_append,
        List.nil_append, opening.go]
      cases hprobe : input.probe other.toList with
      | hit rest => simp [hother, hprobe]
      | miss => simpa [hother, hprobe] using hblocks
      | fault error rest => simp [hother, hprobe]

theorem lexeme_string {config : Config} {quote : Char} (h : config.OpensString quote) (content : Source)
    (line : Nat) :
    config.lexeme ⟨.char quote :: content, line⟩ = config.stringLexeme quote content line := by
  simp [lexeme, h.notWhitespace, h.notDigit, h.quote]

theorem lexeme_block {config : Config} {opener closer : List Char} {body : Source}
    (h : config.OpensBlock opener closer body) (line : Nat) :
    config.lexeme ⟨opener.map .char ++ body, line⟩ = commentLexeme opener (.block closer) body line := by
  obtain ⟨c, cs, rfl, hw, hd, hq, hb⟩ := h.head
  have hopening : config.opening ((c :: cs).map .char ++ body) = .comment (c :: cs) (.block closer) body :=
    opening_eq_block_iff.2 ⟨h.delimiters, by simp, rfl, h.noLine⟩
  rw [List.map_cons, List.cons_append] at hopening ⊢
  simp [lexeme, hw, hd, hq, hb, hopening]

theorem stringLexeme_kind {config : Config} {quote : Char} {content : Source} {line : Nat} {token : Token}
    {after : Cursor} (h : config.stringLexeme quote content line = (.ok token, after)) :
    token.kind = .string := by
  have hterminated := config.stringLexeme_terminated quote content line
  rw [h] at hterminated
  obtain ⟨run, rfl⟩ := hterminated.eq_token
  rfl

theorem newlineLexeme_kind {c : Char} {rest : Source} {line : Nat} {token : Token} {after : Cursor}
    (h : newlineLexeme c rest line = (.ok token, after)) : token.kind = .newline := by
  unfold newlineLexeme at h
  dsimp only at h
  split at h
  . split at h
    . rw [← (Except.ok.inj (Prod.mk.inj h).1)]
    . simp at h
    . rw [← (Except.ok.inj (Prod.mk.inj h).1)]
  . rw [← (Except.ok.inj (Prod.mk.inj h).1)]

theorem wordLexeme_kind {config : Config} {c : Char} {rest : Source} {line : Nat} {token : Token}
    {after : Cursor} (h : config.wordLexeme c rest line = (.ok token, after)) : token.kind = .word := by
  unfold wordLexeme at h
  dsimp only at h
  split at h
  . simp at h
  . rw [← (Except.ok.inj (Prod.mk.inj h).1)]

theorem opens_of_lexeme {config : Config} {input : Source} {line : Nat} {token : Token} {after : Cursor}
    (h : config.lexeme ⟨input, line⟩ = (.ok token, after)) :
    (token.kind = .string → ∃ quote content, input = .char quote :: content ∧ config.OpensString quote) ∧
    (token.kind = .blockComment → ∃ opener closer body, input = opener.map .char ++ body ∧
      config.OpensBlock opener closer body) := by
  have hdispatch := config.lexeme_dispatch input line
  generalize config.lexeme ⟨input, line⟩ = scan at h hdispatch
  cases hdispatch with
  | ending =>
    cases h
    simp [Token.endOfStream]
  | fault => simp at h
  | whitespace =>
    obtain ⟨rfl, _⟩ := Scan.finish_ok h
    simp
  | number =>
    obtain ⟨_, _, _, _, hkind⟩ := numberLexeme_ok h
    rw [hkind]
    split <;> simp
  | string rest hw hd hq => exact ⟨fun _ => ⟨_, rest, rfl, hw, hd, hq⟩, by simp [stringLexeme_kind h]⟩
  | newline => simp [newlineLexeme_kind h]
  | @comment c rest opener style body hw hd hq hb ho =>
    cases style with
    | line =>
      obtain ⟨rfl, _⟩ := Scan.finish_ok h
      simp
    | block closer =>
      have hterminated := blockComment_terminated opener closer body line
      rw [h] at hterminated
      obtain ⟨run, rfl⟩ := hterminated.eq_token
      refine ⟨by simp, fun _ => ?_⟩
      obtain ⟨hdelimiters, hne, hinput, hline⟩ := opening_eq_block_iff.1 ho
      refine ⟨opener, closer, body, hinput, hdelimiters, ?_, ?_⟩
      . cases opener with
        | nil => simp at hne
        | cons d opener =>
          simp only [List.map_cons, List.cons_append, List.cons.injEq, Read.char.injEq] at hinput
          rw [← hinput.1]
          exact ⟨c, opener, rfl, hw, hd, hq, hb⟩
      . rw [← hinput]
        exact hline
  | openingFault => simp at h
  | word => simp [wordLexeme_kind h]

theorem lexeme_terminated (config : Config) (line : Nat) :
    (∀ quote content, config.OpensString quote →
      (config.lexeme ⟨.char quote :: content, line⟩).Terminated (config.EndsString quote) content [quote]
        fun run => { kind := .string, text := String.ofList (quote :: run), line }) ∧
    (∀ opener closer body, config.OpensBlock opener closer body →
      (config.lexeme ⟨opener.map .char ++ body, line⟩).Terminated (closer <:+ ·) body []
        fun run => { kind := .blockComment, text := String.ofList (opener ++ run), line }) ∧
    (∀ input token after, config.lexeme ⟨input, line⟩ = (.ok token, after) →
      (token.kind = .string → ∃ quote content, input = .char quote :: content ∧
        config.OpensString quote) ∧
      (token.kind = .blockComment → ∃ opener closer body, input = opener.map .char ++ body ∧
        config.OpensBlock opener closer body)) := by
  refine ⟨?_, ?_, fun _ _ _ => opens_of_lexeme⟩
  . intro quote content hopens
    rw [lexeme_string hopens]
    apply stringLexeme_terminated
  . intro opener closer body hopens
    rw [lexeme_block hopens]
    apply blockComment_terminated

-- Comments whose closer starts with a part of itself, and strings whose quote is also the escape.
def doubledStars : Config :=
  { blockComment := some ("/*", "**/"), quotes := ['|'], escape := some '|' }

theorem lexeme_terminated_doubledStars :
    doubledStars.OpensString '|' ∧ doubledStars.OpensBlock ['/', '*'] ['*', '*', '/'] (.ofText "***/ b") ∧
      (doubledStars.lexeme ⟨.char '|' :: Source.ofText "a|| b", 1⟩).Terminated (doubledStars.EndsString '|')
        (.ofText "a|| b") ['|'] (fun run => { kind := .string, text := String.ofList ('|' :: run), line := 1 }) ∧
      (doubledStars.lexeme ⟨['/', '*'].map .char ++ Source.ofText "***/ b", 1⟩).Terminated (['*', '*', '/'] <:+ ·)
        (.ofText "***/ b") []
        (fun run => { kind := .blockComment, text := String.ofList (['/', '*'] ++ run), line := 1 }) := by
  have hstring : doubledStars.OpensString '|' := ⟨rfl, rfl, rfl⟩
  have hblock : doubledStars.OpensBlock ['/', '*'] ['*', '*', '/'] (.ofText "***/ b") :=
    ⟨rfl, ⟨'/', ['*'], rfl, rfl, rfl, rfl, rfl⟩, nofun⟩
  obtain ⟨hstrings, hblocks, _⟩ := lexeme_terminated doubledStars 1
  exact ⟨hstring, hblock, hstrings _ _ hstring, hblocks _ _ _ hblock⟩

example : (doubledStars.lexeme ⟨.ofText "/****/ b", 1⟩).1 =
    .ok { kind := .blockComment, text := "/****/", line := 1 } := by
  decide +kernel

example : (doubledStars.lexeme ⟨.ofText "|a|| b", 1⟩).1 =
    .ok { kind := .string, text := "|a|", line := 1 } := by
  decide +kernel

end Config

end TokenGrammar
