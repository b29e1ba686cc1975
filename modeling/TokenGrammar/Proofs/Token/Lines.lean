import TokenGrammar.Proofs.Token.Terminator
import TokenGrammar.Proofs.Tokenizer.Ignoring

/-!
How a scan counts lines. The line grows by the line breaks of what is taken off the source, wherever these
stand, as long as no delimiter holds one (`Config.lexeme_lined`). The delimiters of comments are taken without
being counted, so that a comment whose delimiters hold line breaks leaves the line short by these
(`Config.lexeme_comment_line`).
-/

namespace TokenGrammar

namespace Text

def loneReturns : List Char → List Char → Nat
  | [], _ => 0
  | c :: before, after =>
    (if c = '\r' ∧ (before ++ after).head? ≠ some '\n' then 1 else 0) + loneReturns before after

-- The line breaks among these characters, where `after` comes next: the line feeds and the carriage returns
-- that none follows.
def lineBreaks (before after : List Char) : Nat :=
  before.count '\n' + loneReturns before after

theorem lineBreaks_nil (after : List Char) : lineBreaks [] after = 0 := by
  rfl

theorem loneReturns_append (before middle after : List Char) :
    loneReturns (before ++ middle) after = loneReturns before (middle ++ after) + loneReturns middle after := by
  induction before with
  | nil => simp [loneReturns]
  | cons c before ih =>
    simp only [List.cons_append, loneReturns, ih, List.append_assoc]
    omega

theorem lineBreaks_append (before middle after : List Char) :
    lineBreaks (before ++ middle) after = lineBreaks before (middle ++ after) + lineBreaks middle after := by
  unfold lineBreaks
  rw [loneReturns_append, List.count_append]
  omega

theorem lineBreaks_cons (c : Char) (before after : List Char) :
    lineBreaks (c :: before) after =
      (if c = '\n' then 1 else 0) + (if c = '\r' ∧ (before ++ after).head? ≠ some '\n' then 1 else 0) +
        lineBreaks before after := by
  simp only [lineBreaks, loneReturns, List.count_cons, beq_iff_eq]
  omega

theorem loneReturns_eq_count {before after : List Char} (h : '\n' ∉ before)
    (hafter : after.head? ≠ some '\n') : loneReturns before after = before.count '\r' := by
  induction before with
  | nil => rfl
  | cons c before ih =>
    simp only [List.mem_cons, not_or] at h
    have hnext : (before ++ after).head? ≠ some '\n' := by
      cases before with
      | nil => exact hafter
      | cons d before =>
        simp only [List.mem_cons, not_or] at h
        simpa using Ne.symm h.2.1
    rw [loneReturns, ih h.2, List.count_cons]
    simp only [hnext, ne_eq, not_false_eq_true, and_true, beq_iff_eq]
    omega

theorem lineBreaks_eq_zero {before : List Char} (h : ∀ c ∈ before, Source.isLineBreak c = false)
    (after : List Char) : lineBreaks before after = 0 := by
  induction before with
  | nil => rfl
  | cons c before ih =>
    have hc : c ≠ '\r' ∧ c ≠ '\n' := by simpa [Source.isLineBreak] using h c (by simp)
    rw [lineBreaks_cons, ih fun d hd => h d (by simp [hd])]
    simp [hc.1, hc.2]

theorem lineBreaks_eq_zero_iff {before after : List Char} :
    lineBreaks before after = 0 ↔
      (∀ c ∈ before, Source.isLineBreak c = false) ∨
        ∃ front, before = front ++ ['\r'] ∧ (∀ c ∈ front, Source.isLineBreak c = false) ∧
          after.head? = some '\n' := by
  constructor
  . intro h
    -- Only the last character can be part of a line break that ends after it, so it is taken apart.
    rcases List.eq_nil_or_concat before with rfl | ⟨front, c, rfl⟩
    . simp
    rw [List.concat_eq_append, lineBreaks_append, Nat.add_eq_zero_iff, List.singleton_append] at h
    have hlast : c ≠ '\n' ∧ (c = '\r' → after.head? = some '\n') := by
      simpa [lineBreaks_cons, lineBreaks_nil] using h.2
    have hnext : (c :: after).head? ≠ some '\n' := by simpa using hlast.1
    have hfeeds : '\n' ∉ front := by
      rw [← List.count_eq_zero]
      unfold lineBreaks at h
      omega
    have hreturns : '\r' ∉ front := by
      rw [← List.count_eq_zero, ← loneReturns_eq_count hfeeds hnext]
      unfold lineBreaks at h
      omega
    have hfront : ∀ d ∈ front, Source.isLineBreak d = false := by
      intro d hd
      simp only [Source.isLineBreak, Bool.or_eq_false_iff, decide_eq_false_iff_not]
      constructor
      . rintro rfl
        exact hreturns hd
      . rintro rfl
        exact hfeeds hd
    by_cases hc : c = '\r'
    . right
      rw [hc, List.concat_eq_append]
      exact ⟨front, rfl, hfront, hlast.2 hc⟩
    . left
      intro d hd
      simp only [List.concat_eq_append, List.mem_append, List.mem_singleton] at hd
      rcases hd with hd | rfl
      . exact hfront d hd
      . simp [Source.isLineBreak, hc, hlast.1]
  . rintro (h | ⟨front, rfl, hfront, hafter⟩)
    . exact lineBreaks_eq_zero h after
    . rw [lineBreaks_append, lineBreaks_eq_zero hfront, lineBreaks_cons]
      simp [hafter, lineBreaks_nil]

end Text

namespace Source

theorem lineBreaks_append (chars : List Char) (n : Nat) (rest : Source) :
    lineBreaks (chars.length + n) (chars.map .char ++ rest) =
      lineBreaks chars.length (chars.map .char ++ rest) + lineBreaks n rest := by
  induction chars with
  | nil => simp [lineBreaks, lineBreaks.go]
  | cons c chars ih =>
    rw [List.length_cons, Nat.add_right_comm, List.map_cons, List.cons_append, lineBreaks_cons, lineBreaks_cons,
      ih, Nat.add_assoc]

theorem breakAt_eq_zero {c : Char} (h : isLineBreak c = false) (rest : Source) : breakAt c rest = 0 := by
  have hc : c ≠ '\r' ∧ c ≠ '\n' := by simpa [isLineBreak] using h
  simp [breakAt, hc.1, hc.2]

theorem lineBreaks_eq_zero {chars : List Char} (h : ∀ c ∈ chars, isLineBreak c = false) (rest : Source) :
    lineBreaks chars.length (chars.map .char ++ rest) = 0 := by
  induction chars with
  | nil => simp [lineBreaks, lineBreaks.go]
  | cons c chars ih =>
    rw [List.length_cons, List.map_cons, List.cons_append, lineBreaks_cons,
      breakAt_eq_zero (h c (by simp)), ih fun d hd => h d (by simp [hd])]

theorem lineBreaks_between {front back : List Char} (hfront : ∀ c ∈ front, isLineBreak c = false)
    (hback : ∀ c ∈ back, isLineBreak c = false) (middle : List Char) (rest : Source) :
    lineBreaks (front ++ middle ++ back).length ((front ++ middle ++ back).map .char ++ rest) =
      lineBreaks middle.length (middle.map .char ++ (back.map .char ++ rest)) := by
  simp only [List.length_append, List.map_append, List.append_assoc]
  rw [lineBreaks_append, lineBreaks_append, lineBreaks_eq_zero hfront, lineBreaks_eq_zero hback]
  omega

theorem breakAt_text (c : Char) {next : List Char} {rest : Source} (h : next ≠ [] ∨ rest = []) :
    breakAt c (next.map .char ++ rest) =
      (if c = '\n' then 1 else 0) + (if c = '\r' ∧ next.head? ≠ some '\n' then 1 else 0) := by
  by_cases hn : c = '\n'
  . simp [breakAt, hn]
  by_cases hr : c = '\r'
  . cases next with
    | nil =>
      obtain rfl : rest = [] := by simpa using h
      simp [breakAt, hr]
    | cons d next => by_cases hd : d = '\n' <;> simp [breakAt, hr, hd]
  . simp [breakAt, hn, hr]

theorem lineBreaks_text (before : List Char) {after : List Char} {rest : Source}
    (h : after ≠ [] ∨ rest = []) :
    lineBreaks before.length ((before ++ after).map .char ++ rest) = Text.lineBreaks before after := by
  induction before with
  | nil => simp [lineBreaks, lineBreaks.go, Text.lineBreaks_nil]
  | cons c before ih =>
    have hnext : before ++ after ≠ [] ∨ rest = [] := by
      rcases h with h | h
      . exact Or.inl (by simp [h])
      . exact Or.inr h
    rw [List.length_cons, List.cons_append, List.map_cons, List.cons_append, lineBreaks_cons, ih,
      breakAt_text c hnext, Text.lineBreaks_cons]

theorem isLineBreak_of_isDigit {c : Char} (h : c.isDigit = true) : isLineBreak c = false := by
  cases hb : isLineBreak c with
  | false => rfl
  | true =>
    simp only [isLineBreak, Bool.or_eq_true, decide_eq_true_eq] at hb
    rcases hb with rfl | rfl
    . simp at h
    . simp at h

theorem chars_eq {chars chars' : List Char} {rest : Source}
    (h : chars.map .char ++ rest = chars'.map .char ++ rest) : chars = chars' := by
  exact (List.map_inj_right fun _ _ => Read.char.inj).1 (List.append_cancel_right h)

theorem mem_takeRun {p : Char → Bool} {input : Source} {c : Char} (h : c ∈ (takeRun p input).1) :
    p c = true := by
  obtain ⟨before, after, hsplit⟩ := List.append_of_mem h
  have hpasses := takeUntil_passes hsplit (by simp)
  simpa [startsWith] using hpasses

end Source

structure Scan.Lined (input : Source) (line : Nat) (token : Token) (after : Cursor) (chunk : List Char) :
    Prop where
  start : token.line = line
  growth : after.line = line + input.lineBreaks chunk.length
  word : token.kind = .word → ∀ c ∈ chunk, Source.isLineBreak c = false

theorem Scan.Lined.between {front back : List Char} (hfront : ∀ c ∈ front, Source.isLineBreak c = false)
    (hback : ∀ c ∈ back, Source.isLineBreak c = false) (middle : List Char) {rest : Source} {line : Nat}
    {token : Token} (hline : token.line = line) (hkind : token.kind ≠ .word) :
    Lined ((front ++ middle ++ back).map .char ++ rest) line token
      ⟨rest, line + Source.lineBreaks middle.length (middle.map .char ++ (back.map .char ++ rest))⟩
      (front ++ middle ++ back) := by
  refine ⟨hline, ?_, fun hword => absurd hword hkind⟩
  rw [Source.lineBreaks_between hfront hback]

theorem Scan.finish_line {token token' : Token} {rest : Source} {line : Nat} {after : Cursor}
    (h : finish token rest line = (.ok token', after)) : after.line = line := by
  unfold finish at h
  split at h
  . simp at h
  . rw [← (Prod.mk.inj h).2]

namespace Config

variable {config : Config} {token : Token} {after : Cursor}

theorem whitespaceLexeme_lined {cursor : Cursor} (h : config.whitespaceLexeme cursor = (.ok token, after)) :
    ∃ chunk, cursor.input = chunk.map .char ++ after.input ∧
      Scan.Lined cursor.input cursor.line token after chunk := by
  have hline := Scan.finish_line h
  obtain ⟨rfl, hafter⟩ := Scan.finish_ok h
  refine ⟨_, ?_, rfl, hline, by simp⟩
  rw [hafter]
  exact Source.takeRun_split config.isWhitespace cursor.input

theorem numeral_plain {input rest : Source} {whole : List Char} {places : Option (List Char)}
    (h : numeral input = (whole, places, rest)) :
    ∀ c ∈ numeralText whole places, Source.isLineBreak c = false := by
  have hdigits {p : Source} {c : Char} (hc : c ∈ (p.takeRun Char.isDigit).1) :
      Source.isLineBreak c = false :=
    Source.isLineBreak_of_isDigit (Source.mem_takeRun hc)
  unfold numeral at h
  dsimp only at h
  split at h
  . simp only [Prod.mk.injEq] at h
    obtain ⟨rfl, rfl, _⟩ := h
    intro c hc
    simp only [numeralText, List.mem_append, List.mem_cons] at hc
    rcases hc with hc | rfl | hc
    . exact hdigits hc
    . rfl
    . exact hdigits hc
  . simp only [Prod.mk.injEq] at h
    obtain ⟨rfl, rfl, _⟩ := h
    exact fun c => hdigits

theorem numberLexeme_lined {cursor : Cursor} (h : config.numberLexeme cursor = (.ok token, after)) :
    ∃ chunk, cursor.input = chunk.map .char ++ after.input ∧
      Scan.Lined cursor.input cursor.line token after chunk := by
  have hline := Scan.finish_line h
  obtain ⟨whole, places, hn, _, _⟩ := numberLexeme_ok h
  obtain ⟨rfl, _⟩ := Scan.finish_ok h
  have hsplit := numeral_split hn
  refine ⟨_, hsplit, rfl, ?_, fun _ => numeral_plain hn⟩
  rw [hline, hsplit, Source.lineBreaks_eq_zero (numeral_plain hn), Nat.add_zero]

theorem wordStop_goesOn {c : Char} {rest : Source} (h : config.wordStop (.char c :: rest) = .goesOn) :
    Source.isLineBreak c = false := by
  cases hb : Source.isLineBreak c with
  | false => rfl
  | true => simp [wordStop, hb] at h

theorem wordLexeme_lined {c : Char} (hc : Source.isLineBreak c = false) {rest : Source} {line : Nat}
    (h : config.wordLexeme c rest line = (.ok token, after)) :
    ∃ chunk, .char c :: rest = chunk.map .char ++ after.input ∧
      Scan.Lined (.char c :: rest) line token after chunk := by
  have hsplit := Source.takeUntil_split (fun rest => config.wordStop rest ≠ .goesOn) rest
  have hplain : ∀ d ∈ (rest.takeUntil fun rest => config.wordStop rest ≠ .goesOn).1,
      Source.isLineBreak d = false := by
    intro d hd
    obtain ⟨before, next, htext⟩ := List.append_of_mem hd
    have hpasses := Source.takeUntil_passes htext (by simp)
    exact wordStop_goesOn (by simpa using hpasses)
  unfold wordLexeme at h
  dsimp only at h
  split at h
  . simp at h
  . simp only [Prod.mk.injEq, Except.ok.injEq] at h
    obtain ⟨rfl, rfl⟩ := h
    generalize (rest.takeUntil fun rest => config.wordStop rest ≠ .goesOn) = part at hsplit hplain ⊢
    obtain ⟨text, rest'⟩ := part
    dsimp only at hsplit hplain ⊢
    have hchunk : ∀ d ∈ c :: text, Source.isLineBreak d = false := by
      simpa [hc] using hplain
    have hinput : .char c :: rest = (c :: text).map .char ++ rest' := by
      rw [hsplit]
      rfl
    refine ⟨c :: text, hinput, rfl, ?_, fun _ => hchunk⟩
    rw [hinput, Source.lineBreaks_eq_zero hchunk, Nat.add_zero]

theorem newlineLexeme_lined {c : Char} (hc : Source.isLineBreak c = true) {rest : Source} {line : Nat}
    (h : newlineLexeme c rest line = (.ok token, after)) :
    ∃ chunk, .char c :: rest = chunk.map .char ++ after.input ∧
      Scan.Lined (.char c :: rest) line token after chunk := by
  unfold newlineLexeme at h
  dsimp only at h
  split at h
  . next hcr =>
    split at h
    . next rest =>
      simp only [Prod.mk.injEq, Except.ok.injEq] at h
      obtain ⟨rfl, rfl⟩ := h
      refine ⟨['\r', '\n'], by simp [hcr], rfl, ?_, by simp⟩
      simp [hcr, Source.lineBreaks, Source.lineBreaks.go, Source.breakAt]
    . simp at h
    . next hfeed hfault =>
      simp only [Prod.mk.injEq, Except.ok.injEq] at h
      obtain ⟨rfl, rfl⟩ := h
      refine ⟨['\r'], by simp [hcr], rfl, ?_, by simp⟩
      have hbreak : Source.breakAt '\r' rest = 1 := by
        cases rest with
        | nil => rfl
        | cons read rest =>
          cases read with
          | fault error => exact absurd rfl (hfault error rest)
          | char d =>
            have hd : d ≠ '\n' := by
              rintro rfl
              exact hfeed rest rfl
            simp [Source.breakAt, hd]
      simp [hcr, Source.lineBreaks, Source.lineBreaks.go, hbreak]
  . next hcr =>
    simp only [Prod.mk.injEq, Except.ok.injEq] at h
    obtain ⟨rfl, rfl⟩ := h
    have hlf : c = '\n' := by simpa [Source.isLineBreak, hcr] using hc
    refine ⟨['\n'], by simp [hlf], rfl, ?_, by simp⟩
    simp [hlf, Source.lineBreaks, Source.lineBreaks.go, Source.breakAt]

theorem stringLexeme_lined {quote : Char} (hq : Source.isLineBreak quote = false) {content : Source}
    {line : Nat} (h : config.stringLexeme quote content line = (.ok token, after)) :
    ∃ chunk, .char quote :: content = chunk.map .char ++ after.input ∧
      Scan.Lined (.char quote :: content) line token after chunk := by
  obtain ⟨body, rest, hbody⟩ : ∃ body rest, stringBody quote config.activeEscape content = (body, rest) :=
    ⟨_, _, rfl⟩
  have hnil : config.StaysOpen quote [] := by simp [StaysOpen]
  obtain ⟨hsplit, _, hclose⟩ := stringBody_go_split [] hnil content hbody
  simp only [List.reverse_nil, List.map_nil, List.nil_append] at hsplit
  have hquote : ∀ c ∈ [quote], Source.isLineBreak c = false := by simpa using hq
  simp only [stringLexeme, hbody] at h
  split at h
  . simp only [Prod.mk.injEq, Except.ok.injEq] at h
    obtain ⟨rfl, rfl⟩ := h
    have hinput : .char quote :: content = ([quote] ++ body ++ []).map .char ++ [] := by
      rw [hsplit]
      simp
    refine ⟨_, hinput, ?_⟩
    rw [hinput, hsplit]
    exact .between hquote (by simp) body rfl (by simp)
  . next c rest =>
    obtain ⟨rfl, _⟩ := hclose c rest rfl
    simp only [Prod.mk.injEq, Except.ok.injEq] at h
    obtain ⟨rfl, rfl⟩ := h
    have hinput : .char c :: content = ([c] ++ body ++ [c]).map .char ++ rest := by
      rw [hsplit]
      simp
    refine ⟨_, hinput, ?_⟩
    rw [hinput, hsplit]
    exact .between hquote hquote body rfl (by simp)
  . simp at h

end Config

def CommentStyle.kind : CommentStyle → TokenKind
  | .line => .lineComment
  | .block _ => .blockComment

/--
What has been read of a comment after its opener: the text in it, whose line breaks are counted, and the
closer, which a line comment does not have, nor a block comment that the end of the stream leaves open.
-/
structure Scan.Comment (opener : List Char) (style : CommentStyle) (body : Source) (line : Nat)
    (token : Token) (after : Cursor) (text closer : List Char) : Prop where
  split : body = text.map .char ++ (closer.map .char ++ after.input)
  kind : token.kind = style.kind
  spelled : token.text = String.ofList (opener ++ text ++ closer)
  start : token.line = line
  growth : after.line = line + body.lineBreaks text.length
  unclosed : style = .line → closer = []
  closed : ∀ last, style = .block last → closer = last ∨ closer = [] ∧ after.input = [] ∧ ¬last <:+: text
  known : (closer ≠ [] ∨ after.input = []) ∨ ∀ c ∈ text, Source.isLineBreak c = false

namespace Source

theorem takeUntil_probe_nil (body : Source) :
    (takeUntil (fun rest => rest.probe [] ≠ .miss) body).1 = [] := by
  by_contra hne
  have hpasses := takeUntil_passes (List.nil_append _).symm hne
  simp [probe] at hpasses

theorem not_infix_takeUntil_probe {closer : List Char} (hne : closer ≠ []) (body : Source) :
    ¬closer <:+: (takeUntil (fun rest => rest.probe closer ≠ .miss) body).1 := by
  rintro ⟨before, after, htext⟩
  rw [List.append_assoc] at htext
  have hpasses := takeUntil_passes htext.symm (by simp [hne])
  rw [List.map_append, List.append_assoc, probe_append] at hpasses
  simp at hpasses

end Source

namespace Config

variable {config : Config} {token : Token} {after : Cursor}

theorem lineComment_comment {opener : List Char} {body : Source} {line : Nat}
    (h : commentLexeme opener .line body line = (.ok token, after)) :
    ∃ text, Scan.Comment opener .line body line token after text [] := by
  have hsplit := Source.takeRun_split (fun c => !Source.isLineBreak c) body
  have hplain : ∀ c ∈ (body.takeRun fun c => !Source.isLineBreak c).1, Source.isLineBreak c = false := by
    intro c hc
    simpa using Source.mem_takeRun hc
  unfold commentLexeme at h
  dsimp only at h
  generalize (body.takeRun fun c => !Source.isLineBreak c) = part at h hsplit hplain
  obtain ⟨text, rest⟩ := part
  dsimp only at h hsplit hplain
  have hline := Scan.finish_line h
  obtain ⟨rfl, rfl⟩ := Scan.finish_ok h
  have hgrowth : after.line = line + body.lineBreaks text.length := by
    rw [hline, hsplit, Source.lineBreaks_eq_zero hplain, Nat.add_zero]
  exact ⟨text, hsplit, rfl, by simp, rfl, hgrowth, by simp, by simp, Or.inr hplain⟩

theorem blockComment_comment {opener last : List Char} {body : Source} {line : Nat}
    (h : commentLexeme opener (.block last) body line = (.ok token, after)) :
    ∃ text closer, Scan.Comment opener (.block last) body line token after text closer := by
  have hsplit := Source.takeUntil_split (fun rest => rest.probe last ≠ .miss) body
  have hmiss := @Source.takeUntil_probe_miss last body
  have hnil : last = [] → (body.takeUntil fun rest => rest.probe last ≠ .miss).1 = [] := by
    rintro rfl
    exact body.takeUntil_probe_nil
  have habsent (hne : last ≠ []) := Source.not_infix_takeUntil_probe hne body
  unfold commentLexeme at h
  dsimp only at h
  generalize (body.takeUntil fun rest => rest.probe last ≠ .miss) = part at h hsplit hmiss hnil habsent
  obtain ⟨text, rest⟩ := part
  dsimp only at h hsplit hmiss hnil habsent
  split at h
  . next rest' hit =>
    simp only [Prod.mk.injEq, Except.ok.injEq] at h
    obtain ⟨rfl, rfl⟩ := h
    rw [Source.probe_hit_split hit] at hsplit
    refine ⟨text, last, hsplit, rfl, rfl, rfl, rfl, by simp, by simp, ?_⟩
    cases hlast : last with
    | nil => simp [hnil hlast]
    | cons d last => simp
  . next miss =>
    simp only [Prod.mk.injEq, Except.ok.injEq] at h
    obtain ⟨rfl, rfl⟩ := h
    obtain rfl := hmiss miss
    have hlast := habsent (Source.ne_nil_of_probe_miss miss)
    exact ⟨text, [], hsplit, rfl, by simp, rfl, rfl, by simp, by simpa using Or.inr hlast,
      Or.inl (Or.inr rfl)⟩
  . simp at h

theorem commentLexeme_comment {opener : List Char} {style : CommentStyle} {body : Source} {line : Nat}
    (h : commentLexeme opener style body line = (.ok token, after)) :
    ∃ text closer, Scan.Comment opener style body line token after text closer := by
  cases style with
  | line =>
    obtain ⟨text, hcomment⟩ := lineComment_comment h
    exact ⟨text, [], hcomment⟩
  | block last => exact blockComment_comment h

end Config

namespace Scan.Comment

variable {opener text closer : List Char} {style : CommentStyle} {body : Source} {line : Nat} {token : Token}
  {after : Cursor}

theorem line_eq (h : Comment opener style body line token after text closer) :
    after.line = line + Text.lineBreaks text closer := by
  rw [h.growth, h.split]
  rcases h.known with hknown | hplain
  . rw [← Source.lineBreaks_text text hknown, List.map_append, List.append_assoc]
  . rw [Source.lineBreaks_eq_zero hplain, Text.lineBreaks_eq_zero hplain]

theorem line_eq_iff (h : Comment opener style body line token after text closer) :
    after.line = line + Text.lineBreaks token.text.toList [] ↔
      Text.lineBreaks opener (text ++ closer) = 0 ∧ Text.lineBreaks closer [] = 0 := by
  rw [h.line_eq, h.spelled, String.toList_ofList, Text.lineBreaks_append, Text.lineBreaks_append,
    List.append_nil]
  omega

theorem lined (h : Comment opener style body line token after text closer)
    (hopener : ∀ c ∈ opener, Source.isLineBreak c = false)
    (hcloser : ∀ last, style = .block last → ∀ c ∈ last, Source.isLineBreak c = false) :
    ∃ chunk, opener.map .char ++ body = chunk.map .char ++ after.input ∧
      Lined (opener.map .char ++ body) line token after chunk := by
  have hplain : ∀ c ∈ closer, Source.isLineBreak c = false := by
    cases hstyle : style with
    | line => simp [h.unclosed hstyle]
    | block last =>
      rcases h.closed last hstyle with rfl | ⟨rfl, _⟩
      . exact hcloser _ hstyle
      . simp
  have hinput : opener.map .char ++ body = (opener ++ text ++ closer).map .char ++ after.input := by
    rw [h.split]
    simp
  have hkind : token.kind ≠ .word := by
    rw [h.kind]
    cases style <;> simp [CommentStyle.kind]
  have hafter : after = ⟨after.input, line + Source.lineBreaks text.length
      (text.map .char ++ (closer.map .char ++ after.input))⟩ := by
    rw [← h.split, ← h.growth]
  refine ⟨_, hinput, ?_⟩
  rw [hinput, hafter]
  exact .between hopener hplain text h.start hkind

end Scan.Comment

namespace Config

variable {config : Config} {token : Token} {after : Cursor}

def delimiters (config : Config) : List Char :=
  config.quotes ++ config.lineComment.toList.flatMap String.toList ++
    config.blockComment.toList.flatMap fun (opener, closer) => opener.toList ++ closer.toList

theorem mem_openers {opener : List Char} {style : CommentStyle} (h : (opener, style) ∈ config.openers) :
    (style = .line ∧ config.lineComment = some (String.ofList opener)) ∨
      ∃ last, style = .block last ∧ config.blockComment = some (String.ofList opener, String.ofList last) := by
  rw [openers_eq] at h
  simp only [List.mem_append, List.mem_map, List.mem_filter, Option.mem_toList, Prod.mk.injEq] at h
  rcases h with ⟨text, ⟨htext, _⟩, rfl, rfl⟩ | ⟨⟨first, last⟩, ⟨htexts, _⟩, rfl, rfl⟩
  . simp [htext]
  . simp [htexts]

theorem mem_delimiters_of_openers {opener : List Char} {style : CommentStyle}
    (h : (opener, style) ∈ config.openers) :
    (∀ c ∈ opener, c ∈ config.delimiters) ∧
      ∀ last, style = .block last → ∀ c ∈ last, c ∈ config.delimiters := by
  unfold delimiters
  rcases mem_openers h with ⟨rfl, hline⟩ | ⟨last, rfl, hblock⟩
  . simp +contextual [hline]
  . simp +contextual [hblock]

theorem lexeme_lined (hplain : ∀ c ∈ config.delimiters, Source.isLineBreak c = false) {input : Source}
    {line : Nat} (h : config.lexeme ⟨input, line⟩ = (.ok token, after)) :
    ∃ chunk, input = chunk.map .char ++ after.input ∧ Scan.Lined input line token after chunk := by
  have hdispatch := config.lexeme_dispatch input line
  generalize config.lexeme ⟨input, line⟩ = scan at h hdispatch
  cases hdispatch with
  | ending =>
    cases h
    exact ⟨[], rfl, rfl, rfl, by simp⟩
  | fault => simp at h
  | whitespace => exact whitespaceLexeme_lined h
  | number => exact numberLexeme_lined h
  | @string c rest hw hd hq =>
    have hc : c ∈ config.quotes := by simpa [isQuote] using hq
    exact stringLexeme_lined (hplain c (by simp [delimiters, hc])) h
  | newline rest hw hd hq hb => exact newlineLexeme_lined hb h
  | comment hw hd hq hb ho =>
    obtain ⟨hmem, hinput⟩ := opening_go_comment_split ho
    obtain ⟨hopener, hcloser⟩ := mem_delimiters_of_openers hmem
    obtain ⟨text, closer, hcomment⟩ := commentLexeme_comment h
    rw [hinput]
    exact hcomment.lined (fun c hc => hplain c (hopener c hc))
      fun last hlast c hc => hplain c (hcloser last hlast c hc)
  | openingFault => simp at h
  | word hw hd hq hb ho => exact wordLexeme_lined hb h

inductive Delimits (config : Config) (rest : Source) :
    TokenKind → List Char → List Char → List Char → Prop where
  | line {opener text : List Char} : config.lineComment = some (String.ofList opener) →
    Delimits config rest .lineComment opener text []
  | block {opener text closer : List Char} :
    config.blockComment = some (String.ofList opener, String.ofList closer) →
      Delimits config rest .blockComment opener text closer
  | openBlock {opener text closer : List Char} :
    config.blockComment = some (String.ofList opener, String.ofList closer) → ¬closer <:+: text →
      rest = [] → Delimits config rest .blockComment opener text []

theorem delimits_of_comment {opener text closer : List Char} {style : CommentStyle} {body : Source}
    {line : Nat} (hmem : (opener, style) ∈ config.openers)
    (h : Scan.Comment opener style body line token after text closer) :
    config.Delimits after.input token.kind opener text closer := by
  rw [h.kind]
  rcases mem_openers hmem with ⟨rfl, hline⟩ | ⟨last, rfl, hblock⟩
  . rw [h.unclosed rfl]
    exact .line hline
  . rcases h.closed last rfl with rfl | ⟨rfl, hrest, habsent⟩
    . exact .block hblock
    . exact .openBlock hblock habsent hrest

theorem comment_of_lexeme {input : Source} {line : Nat} (h : config.lexeme ⟨input, line⟩ = (.ok token, after))
    (hkind : token.kind.isComment = true) :
    ∃ opener style body text closer, (opener, style) ∈ config.openers ∧ input = opener.map .char ++ body ∧
      Scan.Comment opener style body line token after text closer := by
  have hdispatch := config.lexeme_dispatch input line
  generalize config.lexeme ⟨input, line⟩ = scan at h hdispatch
  cases hdispatch with
  | ending =>
    cases h
    simp [Token.endOfStream, TokenKind.isComment] at hkind
  | fault => simp at h
  | whitespace =>
    obtain ⟨rfl, _⟩ := Scan.finish_ok h
    simp [TokenKind.isComment] at hkind
  | number =>
    obtain ⟨_, _, _, _, hnumber⟩ := numberLexeme_ok h
    rw [hnumber] at hkind
    split at hkind <;> simp [TokenKind.isComment] at hkind
  | string => simp [stringLexeme_kind h, TokenKind.isComment] at hkind
  | newline => simp [newlineLexeme_kind h, TokenKind.isComment] at hkind
  | comment hw hd hq hb ho =>
    obtain ⟨hmem, hinput⟩ := opening_go_comment_split ho
    obtain ⟨text, closer, hcomment⟩ := commentLexeme_comment h
    exact ⟨_, _, _, text, closer, hmem, hinput, hcomment⟩
  | openingFault => simp at h
  | word => simp [wordLexeme_kind h, TokenKind.isComment] at hkind

/--
After a comment the line has grown by the line breaks of the text between its delimiters. These are all the
line breaks of the comment exactly if there are none in the closer that was read and none that ends in the
opener; a carriage return at the end of the opener is part of a line feed after it. It makes no difference
whether the comment is left out.
-/
theorem lexeme_comment_line {input : Source} {line : Nat}
    (h : config.lexeme ⟨input, line⟩ = (.ok token, after)) (hkind : token.kind.isComment = true) :
    ∃ opener text closer, config.Delimits after.input token.kind opener text closer ∧
      token.text = String.ofList (opener ++ text ++ closer) ∧
      input = token.text.toList.map .char ++ after.input ∧
      token.line = line ∧
      after.line = line + Text.lineBreaks text closer ∧
      (after.line = line + Text.lineBreaks token.text.toList [] ↔
        ((∀ c ∈ opener, Source.isLineBreak c = false) ∨
          ∃ front, opener = front ++ ['\r'] ∧ (∀ c ∈ front, Source.isLineBreak c = false) ∧
            (text ++ closer).head? = some '\n') ∧
        ∀ c ∈ closer, Source.isLineBreak c = false) ∧
      config.scan ⟨input, line⟩ =
        if config.ignores token.kind then config.scan after else (.ok token, after) := by
  obtain ⟨opener, style, body, text, closer, hmem, hinput, hcomment⟩ := comment_of_lexeme h hkind
  refine ⟨opener, text, closer, delimits_of_comment hmem hcomment, hcomment.spelled, ?_, hcomment.start,
    hcomment.line_eq, ?_, ?_⟩
  . rw [hinput, hcomment.split, hcomment.spelled]
    simp
  . rw [hcomment.line_eq_iff, Text.lineBreaks_eq_zero_iff, Text.lineBreaks_eq_zero_iff]
    simp
  . rw [scan_eq, h]

def lineClosed : Config :=
  { blockComment := some ("#", "\n"), ignoreComments := false }

theorem lexeme_comment_line_lineClosed :
    lineClosed.lexeme ⟨.ofText "# a\nb", 1⟩ =
        (.ok { kind := .blockComment, text := "# a\n", line := 1 }, ⟨.ofText "b", 1⟩) ∧
      Text.lineBreaks "# a\n".toList [] = 1 ∧
      ∃ opener text closer, lineClosed.Delimits (.ofText "b") .blockComment opener text closer ∧
        "# a\n" = String.ofList (opener ++ text ++ closer) ∧ 1 = 1 + Text.lineBreaks text closer ∧
        ¬(((∀ c ∈ opener, Source.isLineBreak c = false) ∨
            ∃ front, opener = front ++ ['\r'] ∧ (∀ c ∈ front, Source.isLineBreak c = false) ∧
              (text ++ closer).head? = some '\n') ∧
          ∀ c ∈ closer, Source.isLineBreak c = false) := by
  have hlexeme : lineClosed.lexeme ⟨.ofText "# a\nb", 1⟩ =
      (.ok { kind := .blockComment, text := "# a\n", line := 1 }, ⟨.ofText "b", 1⟩) := by
    decide +kernel
  have hbreaks : Text.lineBreaks "# a\n".toList [] = 1 := by decide +kernel
  obtain ⟨opener, text, closer, hdelimits, htext, _, _, hline, hiff, _⟩ := lexeme_comment_line hlexeme rfl
  refine ⟨hlexeme, hbreaks, opener, text, closer, hdelimits, htext, hline, ?_⟩
  rw [← hiff, hbreaks]
  simp

end Config

end TokenGrammar
