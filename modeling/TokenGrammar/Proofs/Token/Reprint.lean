import TokenGrammar.Proofs.Token.Extent
import TokenGrammar.Proofs.Token.VariantScan

/-!
Scans of what tokens are printed as. A token is found again where its text stands before what the rest of the source
is printed as (`Config.lexeme_reprinted`). The two rests agree only up to a line break, which may be printed as
another one, and at the end of the source, where a string that was left open is printed with the quote that closes it.
No delimiter goes over a line break, so that the quote alone can mislead a scan: it may complete what opens a comment.
-/

namespace TokenGrammar

namespace Text

/--
Two texts that are the same up to a line break in both of them or to the end of the first, where the second may have
one more character.
-/
inductive Agrees (extra : Option Char) : List Char → List Char → Prop where
  | ending : Agrees extra [] extra.toList
  | lineBreak {c d : Char} (cs ds : List Char) : Source.isLineBreak c = true → Source.isLineBreak d = true →
    Agrees extra (c :: cs) (d :: ds)
  | char {cs ds : List Char} (c : Char) : Agrees extra cs ds → Agrees extra (c :: cs) (c :: ds)

namespace Agrees

variable {extra : Option Char} {cs ds : List Char}

theorem append (h : Agrees extra cs ds) (front : List Char) : Agrees extra (front ++ cs) (front ++ ds) := by
  induction front with
  | nil => exact h
  | cons c front ih => exact .char c ih

theorem begins (h : Agrees extra cs ds) {delimiter : List Char}
    (hplain : ∀ c ∈ delimiter, Source.isLineBreak c = false) (hbegins : delimiter <+: cs) : delimiter <+: ds := by
  induction h generalizing delimiter with
  | ending =>
    obtain rfl := List.prefix_nil.1 hbegins
    apply List.nil_prefix
  | lineBreak cs ds hc hd =>
    cases delimiter with
    | nil => apply List.nil_prefix
    | cons e delimiter =>
      obtain ⟨rfl, _⟩ := List.cons_prefix_cons.1 hbegins
      simp [hplain e] at hc
  | char c _ ih =>
    cases delimiter with
    | nil => apply List.nil_prefix
    | cons e delimiter =>
      obtain ⟨rfl, hrest⟩ := List.cons_prefix_cons.1 hbegins
      rw [List.prefix_cons_inj]
      exact ih (fun c hc => hplain c (List.mem_cons_of_mem _ hc)) hrest

-- Only the character that comes after the first text can make a difference.
theorem begins_or (h : Agrees extra cs ds) {delimiter : List Char}
    (hplain : ∀ c ∈ delimiter, Source.isLineBreak c = false) (hbegins : delimiter <+: ds) :
    delimiter <+: cs ∨ ∃ quote, extra = some quote ∧ delimiter = cs ++ [quote] := by
  induction h generalizing delimiter with
  | ending =>
    cases extra with
    | none => exact Or.inl hbegins
    | some quote =>
      rcases List.prefix_concat_iff.1 (show delimiter <+: [] ++ [quote] from hbegins) with rfl | hnil
      . exact Or.inr ⟨quote, rfl, rfl⟩
      . exact Or.inl hnil
  | lineBreak cs ds hc hd =>
    cases delimiter with
    | nil => exact Or.inl (List.nil_prefix)
    | cons e delimiter =>
      obtain ⟨rfl, _⟩ := List.cons_prefix_cons.1 hbegins
      simp [hplain e] at hd
  | char c _ ih =>
    cases delimiter with
    | nil => exact Or.inl (List.nil_prefix)
    | cons e delimiter =>
      obtain ⟨rfl, hrest⟩ := List.cons_prefix_cons.1 hbegins
      rcases ih (fun c hc => hplain c (List.mem_cons_of_mem _ hc)) hrest with hcs | ⟨quote, hextra, rfl⟩
      . exact Or.inl ((List.prefix_cons_inj e).2 hcs)
      . exact Or.inr ⟨quote, hextra, rfl⟩

theorem eq_of_plain (h : Agrees extra cs ds) (hplain : ∀ c ∈ cs, Source.isLineBreak c = false) :
    ds = cs ++ extra.toList := by
  induction h with
  | ending => rfl
  | lineBreak cs ds hc hd => simp [hplain] at hc
  | char c _ ih => rw [ih fun c hc => hplain c (List.mem_cons_of_mem _ hc), List.cons_append]

theorem startsWith_eq (h : Agrees extra cs ds) (hnil : cs = [] → ds = []) {p : Char → Bool}
    (hp : ∀ c d, Source.isLineBreak c = true → Source.isLineBreak d = true → p c = p d) :
    Source.startsWith p (ds.map .char) = Source.startsWith p (cs.map .char) := by
  cases h with
  | ending => rw [hnil rfl]
  | lineBreak cs ds hc hd => exact hp _ _ hd hc
  | char c _ => rfl

end Agrees

theorem loneReturns_congr {before after after' : List Char}
    (h : after.head? = some '\n' ↔ after'.head? = some '\n') :
    loneReturns before after = loneReturns before after' := by
  induction before with
  | nil => rfl
  | cons c before ih =>
    have hnext : (before ++ after).head? = some '\n' ↔ (before ++ after').head? = some '\n' := by
      cases before with
      | nil => exact h
      | cons d before => rfl
    simp only [loneReturns, ih, ne_eq, hnext]

-- Of what comes after a text, all that counts is whether a line feed comes next.
theorem lineBreaks_congr (before : List Char) {after after' : List Char}
    (h : after.head? = some '\n' ↔ after'.head? = some '\n') :
    lineBreaks before after = lineBreaks before after' := by
  unfold lineBreaks
  rw [loneReturns_congr h]

end Text

namespace Source

theorem takeUntil_eq {stop : Source → Bool} {run : List Char} {rest : Source}
    (hpasses : ∀ before after, run = before ++ after → after ≠ [] → stop (after.map .char ++ rest) = false)
    (hstops : ∀ c tail, rest = .char c :: tail → stop rest = true) :
    takeUntil stop (run.map .char ++ rest) = (run, rest) := by
  induction run with
  | nil =>
    cases rest with
    | nil => rfl
    | cons read tail =>
      cases read with
      | fault error => rfl
      | char c =>
        rw [List.map_nil, List.nil_append, takeUntil_cons, if_pos (hstops c tail rfl)]
  | cons c run ih =>
    have hgo := hpasses [] (c :: run) rfl (by simp)
    have hrun := ih fun before after heq => hpasses (c :: before) after (by rw [heq]; rfl)
    rw [List.map_cons, List.cons_append] at hgo ⊢
    rw [takeUntil_cons, hgo, hrun]
    rfl

theorem takeRun_eq {p : Char → Bool} {run : List Char} {rest : Source} (hrun : ∀ c ∈ run, p c = true)
    (hrest : startsWith p rest = false) : takeRun p (run.map .char ++ rest) = (run, rest) := by
  apply takeUntil_eq
  . rintro before (_ | ⟨c, after⟩) rfl hne
    . simp at hne
    . simp [startsWith, hrun c]
  . simp [hrest]

theorem takeRun_stops (p : Char → Bool) (input : Source) : startsWith p (takeRun p input).2 = false := by
  cases hrest : (takeRun p input).2 with
  | nil => rfl
  | cons read rest =>
    cases read with
    | fault error => rfl
    | char c => simpa using takeUntil_stops hrest

theorem isDigit_of_isLineBreak {c : Char} (h : isLineBreak c = true) : c.isDigit = false := by
  rw [← Bool.not_eq_true]
  intro hd
  simp [isLineBreak_of_isDigit hd] at h

theorem isPoint_of_isLineBreak {c : Char} (h : isLineBreak c = true) : decide (c = '.') = false := by
  rw [decide_eq_false_iff_not]
  rintro rfl
  simp [isLineBreak] at h

theorem chars_inj {cs ds : List Char} (h : cs.map Read.char = ds.map Read.char) : cs = ds := by
  exact (List.map_inj_right fun _ _ => Read.char.inj).1 h

end Source

namespace Config

variable {config : Config} {rest ds : List Char} {line line' : Nat} {token : Token}

theorem whitespaceLexeme_reprinted (hplain : ∀ c ∈ config.whitespace, Source.isLineBreak c = false) {cs : List Char}
    (h : config.whitespaceLexeme ⟨cs.map .char, line⟩ = (.ok token, ⟨rest.map .char, line'⟩))
    (hnext : Source.startsWith config.isWhitespace (ds.map .char) =
      Source.startsWith config.isWhitespace (rest.map .char)) :
    config.whitespaceLexeme ⟨(token.text.toList ++ ds).map .char, line⟩ = (.ok token, ⟨ds.map .char, line'⟩) := by
  have hsplit := Source.takeRun_split config.isWhitespace (cs.map .char)
  have hstops := Source.takeRun_stops config.isWhitespace (cs.map .char)
  have hrun : ∀ c ∈ (Source.takeRun config.isWhitespace (cs.map .char)).1, config.isWhitespace c = true :=
    fun c hc => Source.mem_takeRun hc
  unfold whitespaceLexeme at h
  dsimp only at h
  generalize Source.takeRun config.isWhitespace (cs.map .char) = part at h hsplit hstops hrun
  obtain ⟨run, next⟩ := part
  dsimp only at h hsplit hstops hrun
  have hline : line' = _ := Scan.finish_line h
  obtain ⟨rfl, rfl⟩ := Scan.finish_ok h
  dsimp only at hsplit
  have hbreaks : ∀ c ∈ run, Source.isLineBreak c = false := by
    intro c hc
    apply hplain
    simpa [isWhitespace] using hrun c hc
  rw [← hnext] at hstops
  rw [String.toList_ofList]
  unfold whitespaceLexeme
  simp only [List.map_append, Source.takeRun_eq hrun hstops, Variation.finish_chars]
  rw [hline, hsplit, Source.lineBreaks_eq_zero hbreaks, Source.lineBreaks_eq_zero hbreaks]

theorem numeral_reprinted {cs whole : List Char} {places : Option (List Char)}
    (h : numeral (cs.map .char) = (whole, places, rest.map .char))
    (hdigit : Source.startsWith Char.isDigit (ds.map .char) = Source.startsWith Char.isDigit (rest.map .char))
    (hpoint : Source.startsWith (· = '.') (ds.map .char) = Source.startsWith (· = '.') (rest.map .char)) :
    numeral ((numeralText whole places ++ ds).map .char) = (whole, places, ds.map .char) := by
  have hwhole : ∀ c ∈ (Source.takeRun Char.isDigit (cs.map .char)).1, c.isDigit = true :=
    fun c hc => Source.mem_takeRun hc
  have hstops := Source.takeRun_stops Char.isDigit (cs.map .char)
  unfold numeral at h
  dsimp only at h
  generalize Source.takeRun Char.isDigit (cs.map .char) = part at h hwhole hstops
  obtain ⟨digits, next⟩ := part
  dsimp only at h hwhole hstops
  split at h
  . next tail =>
    have hplaces : ∀ c ∈ (Source.takeRun Char.isDigit tail).1, c.isDigit = true :=
      fun c hc => Source.mem_takeRun hc
    have hends := Source.takeRun_stops Char.isDigit tail
    simp only [Prod.mk.injEq] at h
    obtain ⟨rfl, rfl, hrest⟩ := h
    rw [hrest, ← hdigit] at hends
    unfold numeral numeralText
    simp only [List.map_append, List.map_cons, List.append_assoc, List.cons_append]
    rw [Source.takeRun_eq hwhole (by rfl)]
    simp only [Source.takeRun_eq hplaces hends]
  . next hnone =>
    simp only [Prod.mk.injEq] at h
    obtain ⟨rfl, rfl, rfl⟩ := h
    rw [← hdigit] at hstops
    unfold numeral numeralText
    simp only [List.map_append, Source.takeRun_eq hwhole hstops]
    split
    . next heq =>
      rw [heq] at hpoint
      cases rest with
      | nil => simp [Source.startsWith] at hpoint
      | cons c rest =>
        simp only [Source.startsWith, List.map_cons, decide_true, Bool.true_eq, decide_eq_true_eq] at hpoint
        rw [hpoint] at hnone
        exact absurd rfl (hnone _)
    . rfl

theorem numberLexeme_reprinted {cs : List Char}
    (h : config.numberLexeme ⟨cs.map .char, line⟩ = (.ok token, ⟨rest.map .char, line'⟩))
    (hdigit : Source.startsWith Char.isDigit (ds.map .char) = Source.startsWith Char.isDigit (rest.map .char))
    (hpoint : Source.startsWith (· = '.') (ds.map .char) = Source.startsWith (· = '.') (rest.map .char)) :
    config.numberLexeme ⟨(token.text.toList ++ ds).map .char, line⟩ = (.ok token, ⟨ds.map .char, line'⟩) := by
  obtain ⟨whole, places, hn, htext, _⟩ := numberLexeme_ok h
  have hn' := numeral_reprinted hn hdigit hpoint
  rw [htext, String.toList_ofList]
  unfold numberLexeme at h ⊢
  simp only [hn, hn', Variation.finish_chars, Prod.mk.injEq, Except.ok.injEq, Cursor.mk.injEq] at h ⊢
  exact ⟨h.1, trivial, h.2.2⟩

theorem stringBody_eq {quote : Char} {body : List Char} (hopen : config.StaysOpen quote body) {next : Source}
    (hnext : next = [] ∨ config.Closes body ∧ ∃ tail, next = .char quote :: tail) :
    stringBody quote config.activeEscape (body.map .char ++ next) = (body, next) := by
  obtain ⟨body', next', hbody⟩ :
      ∃ body' next', stringBody quote config.activeEscape (body.map .char ++ next) = (body', next') := ⟨_, _, rfl⟩
  have hnil : config.StaysOpen quote [] := by simp [StaysOpen]
  obtain ⟨hsplit, hopen', hclose⟩ := stringBody_go_split [] hnil _ hbody
  simp only [List.reverse_nil, List.map_nil, List.nil_append] at hsplit
  rw [hbody]
  rcases List.append_eq_append_iff.1 hsplit with ⟨more, hmore, hnext'⟩ | ⟨more, hmore, hnext'⟩
  . -- More is read, and among it the quote that closes the body.
    obtain ⟨front, more, rfl, hfront, rfl⟩ := List.map_eq_append_iff.1 hmore
    obtain rfl := Source.chars_inj hfront
    cases more with
    | nil => simpa using hnext'.symm
    | cons c more =>
      rw [hnext'] at hnext
      obtain ⟨hcloses, _, htail⟩ := hnext.resolve_left (by simp)
      simp only [List.map_cons, List.cons_append, List.cons.injEq, Read.char.injEq] at htail
      rw [htail.1] at hopen'
      exact absurd hcloses (hopen' _ _ rfl)
  . -- Less is read, up to a quote in the body.
    obtain ⟨front, more, rfl, hfront, rfl⟩ := List.map_eq_append_iff.1 hmore
    obtain rfl := Source.chars_inj hfront
    cases more with
    | nil => simpa using hnext'
    | cons c more =>
      obtain ⟨rfl, hcloses⟩ := hclose c _ hnext'
      exact absurd hcloses (hopen _ _ rfl)

theorem stringLexeme_closed {quote : Char} {body : List Char} (hopen : config.StaysOpen quote body)
    (hcloses : config.Closes body) (ds : List Char) (line : Nat) :
    config.stringLexeme quote ((body ++ quote :: ds).map .char) line =
      (.ok { kind := .string, text := String.ofList (quote :: body ++ [quote]), line },
        ⟨ds.map .char, line + Text.lineBreaks body [quote]⟩) := by
  have hbody : stringBody quote config.activeEscape (body.map .char ++ .char quote :: ds.map .char) = _ :=
    stringBody_eq hopen (Or.inr ⟨hcloses, _, rfl⟩)
  have hbreaks : Source.lineBreaks body.length ((body ++ [quote]).map .char ++ ds.map .char) = _ :=
    Source.lineBreaks_text body (by simp)
  simp only [List.map_append, List.map_cons, List.map_nil, List.append_assoc, List.cons_append,
    List.nil_append] at hbreaks
  unfold stringLexeme
  simp only [List.map_append, List.map_cons, hbody, hbreaks]

theorem stringLexeme_open {quote : Char} {body : List Char} (hopen : config.StaysOpen quote body) (line : Nat) :
    config.stringLexeme quote (body.map .char) line =
      (.ok { kind := .string, text := String.ofList (quote :: body ++ [quote]), line },
        ⟨[], line + Text.lineBreaks body []⟩) := by
  have hbody : stringBody quote config.activeEscape (body.map .char ++ []) = _ := stringBody_eq hopen (Or.inl rfl)
  have hbreaks : Source.lineBreaks body.length ((body ++ []).map .char ++ []) = _ :=
    Source.lineBreaks_text body (by simp)
  simp only [List.append_nil] at hbody hbreaks
  unfold stringLexeme
  simp only [hbody, hbreaks]

theorem newlineLexeme_ok {c : Char} {input : Source} {after : Cursor}
    (h : newlineLexeme c input line = (.ok token, after)) :
    token = { kind := .newline, text := "\n", line } ∧ after.line = line + 1 := by
  unfold newlineLexeme at h
  dsimp only at h
  split at h
  . split at h
    . cases h
      exact ⟨rfl, rfl⟩
    . simp at h
    . cases h
      exact ⟨rfl, rfl⟩
  . cases h
    exact ⟨rfl, rfl⟩

theorem lineComment_reprinted {opener cs : List Char}
    (h : commentLexeme opener .line (cs.map .char) line = (.ok token, ⟨rest.map .char, line'⟩))
    (hnext : Source.startsWith (!Source.isLineBreak ·) (ds.map .char) =
      Source.startsWith (!Source.isLineBreak ·) (rest.map .char)) :
    ∃ text, token.text.toList = opener ++ text ∧
      commentLexeme opener .line ((text ++ ds).map .char) line = (.ok token, ⟨ds.map .char, line'⟩) := by
  have hstops := Source.takeRun_stops (!Source.isLineBreak ·) (cs.map .char)
  have hrun : ∀ c ∈ (Source.takeRun (!Source.isLineBreak ·) (cs.map .char)).1, (!Source.isLineBreak c) = true :=
    fun c hc => Source.mem_takeRun hc
  unfold commentLexeme at h
  dsimp only at h
  generalize Source.takeRun (!Source.isLineBreak ·) (cs.map .char) = part at h hstops hrun
  obtain ⟨text, next⟩ := part
  dsimp only at h hstops hrun
  have hline : line' = _ := Scan.finish_line h
  obtain ⟨rfl, rfl⟩ := Scan.finish_ok h
  rw [← hnext] at hstops
  refine ⟨text, by rw [String.toList_ofList], ?_⟩
  unfold commentLexeme
  simp only [List.map_append, Source.takeRun_eq hrun hstops, Variation.finish_chars]
  rw [hline]

theorem probe_eq_miss_iff {delimiter cs : List Char} :
    Source.probe delimiter (cs.map .char) = .miss ↔ ¬delimiter <+: cs := by
  constructor
  . rintro hmiss ⟨more, rfl⟩
    simp [Source.probe_append] at hmiss
  . intro hbegins
    cases hprobe : Source.probe delimiter (cs.map .char) with
    | hit after =>
      obtain ⟨front, more, rfl, hfront, _⟩ := List.map_eq_append_iff.1 (Source.probe_hit_split hprobe)
      rw [Source.chars_inj hfront] at hbegins
      simp at hbegins
    | miss => rfl
    | fault error after =>
      have hmem := (Source.probe_fault_readsTo hprobe).suffix.subset (List.mem_cons_self ..)
      simp at hmem

theorem blockComment_reprinted {opener closer cs : List Char}
    (h : commentLexeme opener (.block closer) (cs.map .char) line = (.ok token, ⟨rest.map .char, line'⟩))
    (hrest : rest ≠ []) (ds : List Char) :
    ∃ text, token.text.toList = opener ++ text ++ closer ∧
      commentLexeme opener (.block closer) ((text ++ (closer ++ ds)).map .char) line =
        (.ok token, ⟨ds.map .char, line'⟩) := by
  have hsplit := Source.takeUntil_split (fun rest => rest.probe closer ≠ .miss) (cs.map .char)
  have hmiss := @Source.takeUntil_probe_miss closer (cs.map .char)
  have hpasses {before after : List Char} :=
    @Source.takeUntil_passes (fun rest => rest.probe closer ≠ .miss) (cs.map .char) before after
  have hempty : closer = [] → (Source.takeUntil (fun rest => rest.probe closer ≠ .miss) (cs.map .char)).1 = [] := by
    rintro rfl
    exact Source.takeUntil_probe_nil _
  unfold commentLexeme at h
  dsimp only at h
  generalize Source.takeUntil (fun rest => rest.probe closer ≠ .miss) (cs.map .char) = part
    at h hsplit hmiss hpasses hempty
  obtain ⟨text, next⟩ := part
  dsimp only at h hsplit hmiss hpasses hempty
  split at h
  . next hit =>
    obtain rfl := Source.probe_hit_split hit
    simp only [Prod.mk.injEq, Except.ok.injEq, Cursor.mk.injEq] at h
    obtain ⟨rfl, rfl, rfl⟩ := h
    refine ⟨text, by rw [String.toList_ofList], ?_⟩
    have htext : Source.takeUntil (fun rest => rest.probe closer ≠ .miss) ((text ++ (closer ++ ds)).map .char) =
        (text, (closer ++ ds).map .char) := by
      rw [List.map_append]
      apply Source.takeUntil_eq
      . intro before after htext hne
        have hpass := hpasses htext hne
        rw [← List.map_append, ← List.map_append] at hpass
        rw [← List.map_append]
        simp only [ne_eq, probe_eq_miss_iff, not_not, decide_eq_false_iff_not, ← List.append_assoc] at hpass ⊢
        intro hbegins
        apply hpass
        have hfits := List.prefix_of_prefix_length_le hbegins (List.prefix_append _ _) (by simp)
        exact hfits.trans (List.prefix_append _ _)
      . simp [Source.probe_append]
    have hbreaks (ds : List Char) :
        Source.lineBreaks text.length ((text ++ (closer ++ ds)).map .char) = Text.lineBreaks text closer := by
      by_cases hcloser : closer = []
      . rw [hempty hcloser, Text.lineBreaks_nil]
        simp [Source.lineBreaks, Source.lineBreaks.go]
      . rw [← List.append_assoc, List.map_append]
        exact Source.lineBreaks_text text (Or.inl hcloser)
    have hsplit : cs = text ++ (closer ++ rest) := by
      apply Source.chars_inj
      simpa using hsplit
    unfold commentLexeme
    simp only [htext, hbreaks, hsplit]
    rw [List.map_append, Source.probe_append]
  . next hprobe =>
    obtain rfl := hmiss hprobe
    simp only [Prod.mk.injEq, Cursor.mk.injEq] at h
    simp [hrest] at h
  . simp at h

/-! The same openers are found in texts that agree, unless the character that the second has more completes one. -/

theorem begins_chars_iff {delimiter cs : List Char} :
    delimiter.map Read.char <+: cs.map Read.char ↔ delimiter <+: cs := by
  constructor
  . intro h
    obtain ⟨front, hbegins, hfront⟩ := List.prefix_map_iff.1 h
    rwa [Source.chars_inj hfront]
  . exact fun h => h.map _

theorem opening_chars_eq_none_iff {cs : List Char} :
    config.opening (cs.map .char) = .none ↔ ∀ opener style, (opener, style) ∈ config.openers → ¬opener <+: cs := by
  constructor
  . intro hnone opener style hmem hbegins
    exact opening_go_none hnone hmem (begins_chars_iff.2 hbegins)
  . intro hnone
    cases hopening : config.opening (cs.map .char) with
    | none => rfl
    | comment opener style body =>
      obtain ⟨hmem, hsplit⟩ := opening_go_comment_split hopening
      have hbegins : opener.map Read.char <+: cs.map .char := by
        rw [hsplit]
        apply List.prefix_append
      exact absurd (begins_chars_iff.1 hbegins) (hnone opener style hmem)
    | fault error after =>
      have hmem := (opening_go_fault_readsTo hopening).suffix.subset (List.mem_cons_self ..)
      simp at hmem

theorem opening_line {opener : List Char} (hmem : (opener, .line) ∈ config.openers) (body : Source) :
    config.opening (opener.map .char ++ body) = .comment opener .line body := by
  unfold opening
  rw [openers_eq] at hmem ⊢
  cases hline : config.lineComment with
  | none => simp [hline] at hmem
  | some text =>
    by_cases htext : text = ""
    . simp [hline, htext] at hmem
    . obtain rfl : opener = text.toList := by simpa [hline, htext] using hmem
      simp [htext, opening.go, Source.probe_append]

theorem wordStop_chars (c : Char) (cs : List Char) :
    config.wordStop ((c :: cs).map .char) =
      if config.endsWord ((c :: cs).map .char) then .ends else .goesOn := by
  cases hstop : config.wordStop ((c :: cs).map .char) with
  | goesOn => rw [endsWord_of_goesOn hstop]; rfl
  | ends => rw [List.map_cons, endsWord_of_ends hstop]; rfl
  | fault error after =>
    have hmem := (wordStop_fault_readsTo hstop).suffix.subset (List.mem_cons_self ..)
    simp at hmem

theorem wordLexeme_reprinted {c : Char} {cs : List Char}
    (h : config.wordLexeme c (cs.map .char) line = (.ok token, ⟨rest.map .char, line'⟩))
    (hgoes : ∀ before after, token.text.toList = c :: before ++ after → after ≠ [] →
      config.endsWord ((after ++ rest).map .char) = false → config.endsWord ((after ++ ds).map .char) = false)
    (hends : config.endsWord (rest.map .char) = true → config.endsWord (ds.map .char) = true)
    (hnil : rest = [] → ds = []) :
    ∃ text, token.text.toList = c :: text ∧
      config.wordLexeme c ((text ++ ds).map .char) line = (.ok token, ⟨ds.map .char, line'⟩) := by
  have hstops {c : Char} {tail : Source} :=
    @Source.takeUntil_stops (fun rest => config.wordStop rest ≠ .goesOn) (cs.map .char) tail c
  have hpasses {before after : List Char} :=
    @Source.takeUntil_passes (fun rest => config.wordStop rest ≠ .goesOn) (cs.map .char) before after
  unfold wordLexeme at h
  dsimp only at h
  generalize Source.takeUntil (fun rest => config.wordStop rest ≠ .goesOn) (cs.map .char) = part at h hstops hpasses
  obtain ⟨text, next⟩ := part
  dsimp only at h hstops hpasses
  split at h
  . simp at h
  . simp only [Prod.mk.injEq, Except.ok.injEq, Cursor.mk.injEq] at h
    obtain ⟨rfl, rfl, rfl⟩ := h
    refine ⟨text, by rw [String.toList_ofList], ?_⟩
    have hdone : ds = [] ∨ config.wordStop (ds.map .char) = .ends := by
      cases ds with
      | nil => exact Or.inl rfl
      | cons d ds =>
        cases rest with
        | nil => simp at hnil
        | cons e rest =>
          have hstop := hstops rfl
          rw [← List.map_cons, wordStop_chars] at hstop
          rw [wordStop_chars, hends (by simpa using hstop)]
          exact Or.inr rfl
    have htext : Source.takeUntil (fun rest => config.wordStop rest ≠ .goesOn) ((text ++ ds).map .char) =
        (text, ds.map .char) := by
      rw [List.map_append]
      apply Source.takeUntil_eq
      . rintro before after rfl hne
        have hpass := hpasses rfl hne
        have hgoes := hgoes before after (by rw [String.toList_ofList]; rfl) hne
        rw [← List.map_append] at hpass ⊢
        cases after with
        | nil => simp at hne
        | cons d after =>
          simp only [List.cons_append, wordStop_chars] at hgoes hpass ⊢
          rw [hgoes (by simpa using hpass)]
          rfl
      . intro d tail hds
        rcases hdone with rfl | hdone
        . simp at hds
        . simp [hdone]
    unfold wordLexeme
    simp only [htext]
    rcases hdone with rfl | hdone
    . rfl
    . rw [hdone]

/-! To which scans the first character leads. -/

theorem lexeme_whitespace {c : Char} (hw : config.isWhitespace c = true) (input : Source) (line : Nat) :
    config.lexeme ⟨.char c :: input, line⟩ = config.whitespaceLexeme ⟨.char c :: input, line⟩ := by
  simp [lexeme, hw]

theorem lexeme_number {c : Char} (hw : config.isWhitespace c = false) (hd : c.isDigit = true) (input : Source)
    (line : Nat) :
    config.lexeme ⟨.char c :: input, line⟩ = config.numberLexeme ⟨.char c :: input, line⟩ := by
  simp [lexeme, hw, hd]

section FirstCharacter

variable {c : Char} {input : Source} (hw : config.isWhitespace c = false) (hd : c.isDigit = false)
  (hq : config.isQuote c = false)

include hw hd hq

theorem lexeme_newline (hb : Source.isLineBreak c = true) (line : Nat) :
    config.lexeme ⟨.char c :: input, line⟩ = newlineLexeme c input line := by
  simp [lexeme, hw, hd, hq, hb]

theorem lexeme_comment (hb : Source.isLineBreak c = false) {opener : List Char} {style : CommentStyle}
    {body : Source} (ho : config.opening (.char c :: input) = .comment opener style body) (line : Nat) :
    config.lexeme ⟨.char c :: input, line⟩ = commentLexeme opener style body line := by
  simp [lexeme, hw, hd, hq, hb, ho]

theorem lexeme_word (hb : Source.isLineBreak c = false) (ho : config.opening (.char c :: input) = .none)
    (line : Nat) :
    config.lexeme ⟨.char c :: input, line⟩ = config.wordLexeme c input line := by
  simp [lexeme, hw, hd, hq, hb, ho]

end FirstCharacter

/--
With this quote after it, the source completes what opens a comment, at a place where the scan of its first token
looks for that: at each of the characters of a word, and for line comments at the head of a block comment.
-/
inductive Completes (config : Config) (quote : Char) (chars : List Char) (token : Token) : Prop where
  | word (n : Nat) (style : CommentStyle) :
    Category.order.find? (·.fits config (chars.map .char)) = some .word → n < token.text.length →
      (chars.drop n ++ [quote], style) ∈ config.openers → Completes config quote chars token
  | blockComment :
    Category.order.find? (·.fits config (chars.map .char)) = some .blockComment →
      (chars ++ [quote], .line) ∈ config.openers → Completes config quote chars token

section Agreement

variable {extra : Option Char} {cs : List Char}
  (hplain : ∀ c ∈ config.whitespace ++ config.delimiters, Source.isLineBreak c = false)

include hplain

theorem isWhitespace_of_isLineBreak {c : Char} (hc : Source.isLineBreak c = true) :
    config.isWhitespace c = false := by
  rw [← Bool.not_eq_true]
  intro hw
  have hmem : c ∈ config.whitespace := by simpa [isWhitespace] using hw
  simp [hplain c (List.mem_append_left _ hmem)] at hc

theorem isQuote_of_isLineBreak {c : Char} (hc : Source.isLineBreak c = true) : config.isQuote c = false := by
  rw [← Bool.not_eq_true]
  intro hq
  have hmem : c ∈ config.delimiters := by
    have : c ∈ config.quotes := by simpa [isQuote] using hq
    simp [delimiters, this]
  simp [hplain c (List.mem_append_right _ hmem)] at hc

theorem opener_plain {opener : List Char} {style : CommentStyle} (hmem : (opener, style) ∈ config.openers) :
    ∀ c ∈ opener, Source.isLineBreak c = false := by
  intro c hc
  exact hplain c (List.mem_append_right _ ((mem_delimiters_of_openers hmem).1 c hc))

theorem startsWith_agrees (h : Text.Agrees extra cs ds) (hnil : cs = [] → ds = []) :
    Source.startsWith Source.isLineBreak (ds.map .char) = Source.startsWith Source.isLineBreak (cs.map .char) ∧
      Source.startsWith config.isWhitespace (ds.map .char) =
        Source.startsWith config.isWhitespace (cs.map .char) ∧
      Source.startsWith config.isQuote (ds.map .char) = Source.startsWith config.isQuote (cs.map .char) := by
  refine ⟨?_, ?_, ?_⟩
  . exact h.startsWith_eq hnil fun c d hc hd => hc.trans hd.symm
  . apply h.startsWith_eq hnil
    intro c d hc hd
    rw [isWhitespace_of_isLineBreak hplain hc, isWhitespace_of_isLineBreak hplain hd]
  . apply h.startsWith_eq hnil
    intro c d hc hd
    rw [isQuote_of_isLineBreak hplain hc, isQuote_of_isLineBreak hplain hd]

theorem endsWord_agrees (h : Text.Agrees extra cs ds) (hnil : cs = [] → ds = [])
    (hends : config.endsWord (cs.map .char) = true) : config.endsWord (ds.map .char) = true := by
  obtain ⟨hbreak, hspace, hquote⟩ := startsWith_agrees hplain h hnil
  rw [endsWord_iff] at hends ⊢
  rw [hbreak, hspace, hquote]
  rcases hends with hends | hends | hends | ⟨opener, style, hmem, hbegins⟩
  . exact Or.inl hends
  . exact Or.inr (Or.inl hends)
  . exact Or.inr (Or.inr (Or.inl hends))
  . refine Or.inr (Or.inr (Or.inr ⟨opener, style, hmem, ?_⟩))
    rw [begins_chars_iff] at hbegins ⊢
    exact h.begins (opener_plain hplain hmem) hbegins

theorem endsWord_of_agrees (h : Text.Agrees extra cs ds) (hnil : cs = [] → ds = [])
    (hends : config.endsWord (ds.map .char) = true) :
    config.endsWord (cs.map .char) = true ∨
      ∃ quote style, extra = some quote ∧ (cs ++ [quote], style) ∈ config.openers := by
  obtain ⟨hbreak, hspace, hquote⟩ := startsWith_agrees hplain h hnil
  rw [endsWord_iff] at hends ⊢
  rw [hbreak, hspace, hquote] at hends
  rcases hends with hends | hends | hends | ⟨opener, style, hmem, hbegins⟩
  . exact Or.inl (Or.inl hends)
  . exact Or.inl (Or.inr (Or.inl hends))
  . exact Or.inl (Or.inr (Or.inr (Or.inl hends)))
  . rw [begins_chars_iff] at hbegins
    rcases h.begins_or (opener_plain hplain hmem) hbegins with hcs | ⟨quote, hextra, rfl⟩
    . exact Or.inl (Or.inr (Or.inr (Or.inr ⟨opener, style, hmem, begins_chars_iff.2 hcs⟩)))
    . exact Or.inr ⟨quote, style, hextra, hmem⟩

/-! In what follows, a token has been found at the head of a source that starts with `c`. -/

variable {c : Char} {tail : List Char} (hagrees : Text.Agrees extra rest ds) (hnil : rest = [] → ds = [])
  (hcompletes : ∀ quote, extra = some quote → ¬config.Completes quote (c :: tail ++ rest) token)
  (hw : config.isWhitespace c = false) (hd : c.isDigit = false) (hq : config.isQuote c = false)
  (hb : Source.isLineBreak c = false)

include hagrees hnil hcompletes hw hd hq hb

theorem lexeme_comment_reprinted {opener : List Char} {style : CommentStyle} {body : Source}
    (ho : config.opening ((c :: tail ++ rest).map .char) = .comment opener style body)
    (h : commentLexeme opener style body line = (.ok token, ⟨rest.map .char, line'⟩))
    (htext : token.text.toList = c :: tail) :
    config.lexeme ⟨(c :: tail ++ ds).map .char, line⟩ = (.ok token, ⟨ds.map .char, line'⟩) := by
  obtain ⟨hmem, hsplit⟩ := opening_go_comment_split ho
  obtain ⟨_, cs, _, _, rfl⟩ := List.map_eq_append_iff.1 hsplit
  cases style with
  | line =>
    have hnext := hagrees.startsWith_eq hnil (p := (!Source.isLineBreak ·)) fun c d hc hd => by rw [hc, hd]
    obtain ⟨text, htext', hscan⟩ := lineComment_reprinted h hnext
    have hinput : (c :: tail ++ ds).map Read.char = opener.map .char ++ (text ++ ds).map .char := by
      rw [← htext, htext', ← List.map_append, List.append_assoc]
    have ho' : config.opening ((c :: tail ++ ds).map .char) = .comment opener .line ((text ++ ds).map .char) := by
      rw [hinput]
      exact opening_line hmem _
    exact (lexeme_comment hw hd hq hb ho' line).trans hscan
  | block closer =>
    by_cases hrest : rest = []
    . -- Nothing comes after the comment, so that the source is the same.
      rw [hnil hrest]
      rw [hrest] at h ho
      exact (lexeme_comment hw hd hq hb ho line).trans h
    obtain ⟨text, htext', hscan⟩ := blockComment_reprinted h hrest ds
    obtain ⟨hdelimiters, hne, _, hmiss⟩ := opening_eq_block_iff.1 ho
    have hinput : (c :: tail ++ ds).map Read.char = opener.map .char ++ (text ++ (closer ++ ds)).map .char := by
      rw [← htext, htext', ← List.map_append]
      simp only [List.append_assoc]
    have hmiss' (other : String) (hother : config.lineComment = some other) (hne' : other ≠ "") :
        Source.probe other.toList ((c :: tail ++ ds).map .char) = .miss := by
      have hline : (other.toList, .line) ∈ config.openers := by simp [openers_eq, hother, hne']
      have hnot := probe_eq_miss_iff.1 (hmiss other hother hne')
      rw [probe_eq_miss_iff]
      intro hbegins
      have hbegins_or := (hagrees.append (c :: tail)).begins_or (opener_plain hplain hline) hbegins
      rcases hbegins_or with hbegins | ⟨quote, hextra, heq⟩
      . exact hnot hbegins
      . exact hcompletes quote hextra (.blockComment (first_blockComment hw hd hq hb ho) (heq ▸ hline))
    have ho' := opening_eq_block_iff.2 ⟨hdelimiters, hne, hinput, hmiss'⟩
    exact (lexeme_comment hw hd hq hb ho' line).trans hscan

theorem lexeme_word_reprinted (ho : config.opening ((c :: tail ++ rest).map .char) = .none)
    (h : config.wordLexeme c ((tail ++ rest).map .char) line = (.ok token, ⟨rest.map .char, line'⟩))
    (htext : token.text.toList = c :: tail) :
    config.lexeme ⟨(c :: tail ++ ds).map .char, line⟩ = (.ok token, ⟨ds.map .char, line'⟩) := by
  have hfirst := first_word hw hd hq hb ho
  have hlength : token.text.length = (c :: tail).length := by rw [← htext, String.length_toList]
  have ho' : config.opening ((c :: tail ++ ds).map .char) = .none := by
    rw [opening_chars_eq_none_iff] at ho ⊢
    intro opener style hmem hbegins
    have hbegins_or := (hagrees.append (c :: tail)).begins_or (opener_plain hplain hmem) hbegins
    rcases hbegins_or with hbegins | ⟨quote, hextra, heq⟩
    . exact ho opener style hmem hbegins
    . exact hcompletes quote hextra (.word 0 style hfirst (by simp [hlength]) (heq ▸ hmem))
  have hgoes (before after : List Char) (hsplit : token.text.toList = c :: before ++ after) (hne : after ≠ [])
      (hgo : config.endsWord ((after ++ rest).map .char) = false) :
      config.endsWord ((after ++ ds).map .char) = false := by
    rw [← Bool.not_eq_true]
    intro hends
    have hends_or := endsWord_of_agrees hplain (hagrees.append after) (by simp [hne]) hends
    rcases hends_or with hends | ⟨quote, style, hextra, hmem⟩
    . exact absurd hends (by simp only [hgo, Bool.false_eq_true, not_false_eq_true])
    . rw [htext] at hsplit
      have hpos := List.length_pos_iff.2 hne
      refine hcompletes quote hextra (.word (c :: before).length style hfirst ?_ ?_)
      . rw [hlength, hsplit, List.length_append]
        omega
      . rw [hsplit, List.append_assoc, List.drop_left]
        exact hmem
  obtain ⟨text, htext', hscan⟩ := wordLexeme_reprinted h hgoes (endsWord_agrees hplain hagrees hnil) hnil
  obtain rfl : tail = text := by simpa [htext] using htext'
  exact (lexeme_word hw hd hq hb ho' line).trans hscan

end Agreement

theorem lexeme_reprinted (hplain : ∀ c ∈ config.whitespace ++ config.delimiters, Source.isLineBreak c = false)
    {extra : Option Char} {chunk : List Char}
    (h : config.lexeme ⟨(chunk ++ rest).map .char, line⟩ = (.ok token, ⟨rest.map .char, line'⟩))
    (hend : token.isEndOfStream = false) (hspells : token.Spells config chunk) (hagrees : Text.Agrees extra rest ds)
    (hnil : rest = [] → ds = [])
    (hcompletes : ∀ quote, extra = some quote → ¬config.Completes quote (chunk ++ rest) token) :
    config.lexeme ⟨(token.text.toList ++ ds).map .char, line⟩ = (.ok token, ⟨ds.map .char, line'⟩) := by
  have hlt := length_lt_of_lexeme h hend
  obtain ⟨c, tail, rfl⟩ : ∃ c tail, chunk = c :: tail := by
    cases chunk with
    | nil => simp at hlt
    | cons c tail => exact ⟨c, tail, rfl⟩
  have htext (hkind : token.kind ≠ .newline) : token.text.toList = c :: tail := by
    rw [hspells.text_eq hkind, String.toList_ofList]
  rw [List.cons_append, List.map_cons] at h
  have hdispatch := config.lexeme_dispatch (.char c :: (tail ++ rest).map .char) line
  generalize config.lexeme ⟨.char c :: (tail ++ rest).map .char, line⟩ = scan at h hdispatch
  cases hdispatch with
  | whitespace _ hw =>
    have hkind : token.kind ≠ .newline := by
      obtain ⟨rfl, _⟩ := Scan.finish_ok h
      simp
    rw [← List.map_cons] at h
    have hscan := whitespaceLexeme_reprinted (fun c hc => hplain c (List.mem_append_left _ hc)) h
      (startsWith_agrees hplain hagrees hnil).2.1
    rw [htext hkind] at hscan ⊢
    exact (lexeme_whitespace hw _ line).trans hscan
  | number _ hw hd =>
    have hkind : token.kind ≠ .newline := by
      obtain ⟨_, _, _, _, hkind⟩ := numberLexeme_ok h
      rw [hkind]
      split <;> simp
    rw [← List.map_cons] at h
    have hscan := numberLexeme_reprinted h
      (hagrees.startsWith_eq hnil fun c d hc hd => by
        rw [Source.isDigit_of_isLineBreak hc, Source.isDigit_of_isLineBreak hd])
      (hagrees.startsWith_eq hnil fun c d hc hd => by
        rw [Source.isPoint_of_isLineBreak hc, Source.isPoint_of_isLineBreak hd])
    rw [htext hkind] at hscan ⊢
    exact (lexeme_number hw hd _ line).trans hscan
  | string _ hw hd hq =>
    have hkind := stringLexeme_kind h
    simp only [Token.Spells, hkind] at hspells
    obtain ⟨_, quote, body, _, hopen, hcloses, hchunk⟩ := hspells
    rw [List.cons_append, List.cons.injEq] at hchunk
    obtain ⟨rfl, rfl⟩ := hchunk
    rw [htext (by simp [hkind])]
    rw [List.append_assoc, List.singleton_append, stringLexeme_closed hopen hcloses] at h
    simp only [Prod.mk.injEq, Except.ok.injEq, Cursor.mk.injEq] at h
    obtain ⟨rfl, _, rfl⟩ := h
    rw [List.cons_append, List.map_cons, lexeme_string ⟨hw, hd, hq⟩, List.append_assoc, List.singleton_append,
      stringLexeme_closed hopen hcloses]
  | newline _ hw hd hq hb =>
    obtain ⟨rfl, rfl⟩ := newlineLexeme_ok h
    rw [show "\n".toList = ['\n'] from rfl, List.singleton_append, List.map_cons,
      lexeme_newline (isWhitespace_of_isLineBreak hplain rfl) rfl (isQuote_of_isLineBreak hplain rfl) rfl]
    rfl
  | comment hw hd hq hb ho =>
    obtain ⟨_, _, hcomment⟩ := commentLexeme_comment h
    have hkind : token.kind ≠ .newline := by
      rw [hcomment.kind]
      unfold CommentStyle.kind
      split <;> simp
    rw [htext hkind]
    exact lexeme_comment_reprinted hplain hagrees hnil hcompletes hw hd hq hb ho h (htext hkind)
  | openingFault => simp at h
  | word hw hd hq hb ho =>
    have hkind : token.kind ≠ .newline := by simp [wordLexeme_kind h]
    rw [htext hkind]
    exact lexeme_word_reprinted hplain hagrees hnil hcompletes hw hd hq hb ho h (htext hkind)

end Config

end TokenGrammar
