import Mathlib.Data.List.TakeWhile
import TokenGrammar.Proofs.Token.Lines

/-!
Which token comes next and how far it goes. The head of a source decides on the category, the first in a fixed order
that fits, and whitespace, numbers, line comments and words are the longest runs of their category that the source
starts with (`Config.lexeme_cut`).
-/

namespace TokenGrammar

namespace Source

structure Longest (fits : List Char → Prop) (input : Source) (run : List Char) : Prop where
  begins : run.map .char <+: input
  holds : fits run
  greatest : ∀ other : List Char, other.map .char <+: input → fits other → other.length ≤ run.length

-- Only where a character follows can there be a longer run.
theorem longest_of_split {fits : List Char → Prop} {run : List Char} {rest : Source} (hholds : fits run)
    (hends : ∀ c after other, rest = .char c :: after → other.map .char <+: run.map .char ++ rest →
      run.length < other.length → ¬fits other) :
    Longest fits (run.map .char ++ rest) run := by
  refine ⟨List.prefix_append _ _, hholds, ?_⟩
  intro other hbegins hfits
  rw [← Nat.not_lt]
  intro hlt
  apply Nat.not_le_of_lt hlt
  apply length_le_of_begins hbegins
  intro c after hrest
  exact hends c after other hrest hbegins hlt hfits

theorem takeRun_longest (p : Char → Bool) (input : Source) :
    input.Longest (fun run => ∀ c ∈ run, p c = true) (takeRun p input).1 := by
  have hsplit := takeRun_split p input
  have hstops := @takeUntil_stops (fun rest => !startsWith p rest) input
  have hholds (c : Char) (h : c ∈ (takeRun p input).1) : p c = true := mem_takeRun h
  change ∀ rest c, (takeRun p input).2 = .char c :: rest → _ at hstops
  generalize takeRun p input = part at hsplit hstops hholds ⊢
  obtain ⟨run, rest⟩ := part
  rw [hsplit]
  apply longest_of_split hholds
  rintro c after other rfl hbegins hlt hfits
  have hc : (run ++ [c]).map .char <+: run.map .char ++ .char c :: after := by simp
  have hprefix := List.prefix_of_prefix_length_le hc hbegins (by simpa using Nat.succ_le_of_lt hlt)
  have hmem : Read.char c ∈ other.map Read.char := hprefix.subset (by simp)
  have hstop := hstops after c rfl
  simp [startsWith, hfits c (by simpa using hmem)] at hstop

theorem Longest.append {fits : List Char → Prop} {input : Source} {run : List Char} (h : input.Longest fits run)
    (front : List Char) :
    Longest (fun all => ∃ run, all = front ++ run ∧ fits run) (front.map .char ++ input) (front ++ run) := by
  constructor
  . rw [List.map_append, List.prefix_append_right_inj]
    exact h.begins
  . exact ⟨run, rfl, h.holds⟩
  . rintro _ hbegins ⟨other, rfl, hfits⟩
    rw [List.map_append, List.prefix_append_right_inj] at hbegins
    have hle := h.greatest other hbegins hfits
    simpa using hle

end Source

namespace Config

def IsNumeral (run : List Char) : Prop :=
  ∃ whole places, run = numeralText whole places ∧ ∀ c ∈ whole ++ places.getD [], c.isDigit = true

def opensLine (config : Config) (input : Source) : Bool :=
  config.lineComment.any fun opener => opener ≠ "" && opener.toList.map .char <+: input

def opensBlock (config : Config) (input : Source) : Bool :=
  config.blockComment.any fun (opener, _) => opener ≠ "" && opener.toList.map .char <+: input

def endsWord (config : Config) (input : Source) : Bool :=
  input.startsWith Source.isLineBreak || input.startsWith config.isWhitespace ||
    input.startsWith config.isQuote || config.opensLine input || config.opensBlock input

end Config

inductive Category where
  | whitespace
  | number
  | string
  | newline
  | lineComment
  | blockComment
  | word
  deriving DecidableEq, Repr

namespace Category

def order : List Category :=
  [whitespace, number, string, newline, lineComment, blockComment, word]

def fits (config : Config) (input : Source) : Category → Bool
  | whitespace => input.startsWith config.isWhitespace
  | number => input.startsWith Char.isDigit
  | string => input.startsWith config.isQuote
  | newline => input.startsWith Source.isLineBreak
  | lineComment => config.opensLine input
  | blockComment => config.opensBlock input
  | word => true

theorem not_fits_of_first {config : Config} {input : Source} {category : Category}
    (h : order.find? (·.fits config input) = some category) (other : Category)
    (hother : other ∈ order.takeWhile (· ≠ category)) : other.fits config input = false := by
  rw [← List.takeWhile_append_dropWhile (p := (· ≠ category)) (l := order), List.find?_append] at h
  cases hfound : (order.takeWhile (· ≠ category)).find? (·.fits config input) with
  | none => simpa using List.find?_eq_none.1 hfound other hother
  | some found =>
    rw [hfound, Option.some_or, Option.some.injEq] at h
    have hne := List.mem_takeWhile_imp (List.mem_of_find?_eq_some hfound)
    simp [h] at hne

def kind (config : Config) : Category → TokenKind
  | whitespace => .whitespace
  | number => if config.numbersAsWords then .word else .number
  | string => .string
  | newline => .newline
  | lineComment => .lineComment
  | blockComment => .blockComment
  | word => .word

/--
What the tokens of the category are the longest runs of. A word is told by the whole source, in which a comment may
open at each of its characters. Strings, line breaks and block comments are not runs: they have an end of their own.
-/
def run? (config : Config) (input : Source) : Category → Option (List Char → Prop)
  | whitespace => some fun run => ∀ c ∈ run, config.isWhitespace c = true
  | number => some Config.IsNumeral
  | lineComment => some fun run => ∃ opener text, config.lineComment = some opener ∧
      run = opener.toList ++ text ∧ ∀ c ∈ text, Source.isLineBreak c = false
  | word => some fun run => ∀ n, 0 < n → n < run.length → config.endsWord (input.drop n) = false
  | _ => none

end Category

namespace Config

structure Cut (config : Config) (input : Source) (category : Category) (chunk : List Char) (rest : Source)
    (token : Token) : Prop where
  split : input = chunk.map .char ++ rest
  first : Category.order.find? (·.fits config input) = some category
  kind : token.kind = category.kind config
  spelled : token.Spells config chunk ∨ token.SpellsOpen config chunk ∧ rest = []
  longest : ∀ fits, category.run? config input = some fits → input.Longest fits chunk

variable {config : Config} {token : Token} {after : Cursor}

theorem whitespaceLexeme_longest {cursor : Cursor} (h : config.whitespaceLexeme cursor = (.ok token, after)) :
    ∃ run : List Char, cursor.input = run.map .char ++ after.input ∧
      cursor.input.Longest (fun run => ∀ c ∈ run, config.isWhitespace c = true) run := by
  obtain ⟨_, hafter⟩ := Scan.finish_ok h
  refine ⟨_, ?_, Source.takeRun_longest config.isWhitespace cursor.input⟩
  rw [hafter]
  exact Source.takeRun_split config.isWhitespace cursor.input

-- A point that comes after digits comes after all of them, since it is not one itself.
theorem point_after_digits {input : Source} {whole places : List Char} (hdigits : ∀ c ∈ whole, c.isDigit = true)
    (hbegins : (whole ++ '.' :: places).map .char <+: input) :
    whole = (input.takeRun Char.isDigit).1 ∧
      ('.' :: places).map .char <+: (input.takeRun Char.isDigit).2 := by
  have hlongest := Source.takeRun_longest Char.isDigit input
  have hsplit := Source.takeRun_split Char.isDigit input
  have hwhole : whole.map .char <+: input := by
    rw [List.map_append] at hbegins
    exact (List.prefix_append _ _).trans hbegins
  have hle := hlongest.greatest whole hwhole hdigits
  generalize input.takeRun Char.isDigit = part at hlongest hsplit hle ⊢
  obtain ⟨digits, next⟩ := part
  rw [hsplit] at hbegins hwhole
  obtain ⟨more, rfl⟩ := Source.prefix_of_begins hwhole hle
  simp only [List.map_append, List.append_assoc, List.prefix_append_right_inj] at hbegins
  cases more with
  | nil => exact ⟨by simp, by simpa using hbegins⟩
  | cons c more =>
    simp only [List.map_cons, List.cons_append, List.cons_prefix_cons, Read.char.injEq] at hbegins
    have hdigit := hlongest.holds c (by simp)
    rw [← hbegins.1] at hdigit
    simp at hdigit

theorem numeral_longest {input rest : Source} {whole : List Char} {places : Option (List Char)}
    (h : numeral input = (whole, places, rest)) : input.Longest IsNumeral (numeralText whole places) := by
  have hwhole := Source.takeRun_longest Char.isDigit input
  have hpoint {whole places : List Char} := @point_after_digits input whole places
  have hbegins : (numeralText whole places).map .char <+: input := by
    rw [numeral_split h]
    apply List.prefix_append
  unfold numeral at h
  dsimp only at h
  generalize input.takeRun Char.isDigit = part at h hwhole hpoint
  obtain ⟨digits, next⟩ := part
  dsimp only at h hwhole hpoint
  split at h
  . next tail =>
    have hplaces := Source.takeRun_longest Char.isDigit tail
    simp only [Prod.mk.injEq] at h
    obtain ⟨rfl, rfl, rfl⟩ := h
    refine ⟨hbegins, ⟨_, _, rfl, ?_⟩, ?_⟩
    . intro c hc
      rcases List.mem_append.1 hc with hc | hc
      . exact hwhole.holds c hc
      . exact hplaces.holds c hc
    . rintro _ hother ⟨whole', places', rfl, hdigits⟩
      have hwhole' := fun c hc => hdigits c (List.mem_append_left _ hc)
      cases places' with
      | none =>
        have hle := hwhole.greatest whole' hother hwhole'
        simp only [numeralText, List.length_append, List.length_cons]
        omega
      | some places' =>
        obtain ⟨rfl, hnext⟩ := hpoint hwhole' hother
        rw [List.map_cons, List.cons_prefix_cons] at hnext
        have hle := hplaces.greatest places' hnext.2 fun c hc => hdigits c (List.mem_append_right _ hc)
        simp only [numeralText, List.length_append, List.length_cons]
        omega
  . next hnone =>
    simp only [Prod.mk.injEq] at h
    obtain ⟨rfl, rfl, rfl⟩ := h
    refine ⟨hbegins, ⟨_, none, rfl, ?_⟩, ?_⟩
    . simpa using hwhole.holds
    . rintro _ hother ⟨whole', places', rfl, hdigits⟩
      have hwhole' := fun c hc => hdigits c (List.mem_append_left _ hc)
      cases places' with
      | none => exact hwhole.greatest whole' hother hwhole'
      | some places' =>
        obtain ⟨_, more, hnext⟩ := hpoint hwhole' hother
        exact absurd hnext.symm (hnone _)

theorem numberLexeme_longest {cursor : Cursor} (h : config.numberLexeme cursor = (.ok token, after)) :
    ∃ run : List Char, cursor.input = run.map .char ++ after.input ∧ cursor.input.Longest IsNumeral run := by
  obtain ⟨whole, places, hn, _, _⟩ := numberLexeme_ok h
  exact ⟨_, numeral_split hn, numeral_longest hn⟩

theorem lineComment_longest {opener : List Char} {body : Source} {line : Nat}
    (h : commentLexeme opener .line body line = (.ok token, after)) :
    ∃ run : List Char, opener.map .char ++ body = run.map .char ++ after.input ∧
      Source.Longest (fun all => ∃ text, all = opener ++ text ∧ ∀ c ∈ text, Source.isLineBreak c = false)
        (opener.map .char ++ body) run := by
  have hlongest := (Source.takeRun_longest (fun c => !Source.isLineBreak c) body).append opener
  simp only [Bool.not_eq_eq_eq_not, Bool.not_true] at hlongest
  obtain ⟨_, hafter⟩ := Scan.finish_ok h
  refine ⟨_, ?_, hlongest⟩
  rw [hafter, List.map_append, List.append_assoc, List.append_cancel_left_eq]
  exact Source.takeRun_split (fun c => !Source.isLineBreak c) body

/-! Where comments open. -/

theorem opening_go_none {openers : List (List Char × CommentStyle)} {input : Source}
    (h : opening.go input openers = .none) {opener : List Char} {style : CommentStyle}
    (hmem : (opener, style) ∈ openers) : ¬opener.map .char <+: input := by
  rintro ⟨body, rfl⟩
  induction openers with
  | nil => simp at hmem
  | cons first openers ih =>
    unfold opening.go at h
    split at h
    . simp at h
    . next hmiss =>
      rcases List.mem_cons.1 hmem with rfl | hmem
      . simp [Source.probe_append] at hmiss
      . exact ih hmem h
    . simp at h

theorem opensLine_iff {input : Source} :
    config.opensLine input = true ↔
      ∃ opener, (opener, .line) ∈ config.openers ∧ opener.map .char <+: input := by
  rw [openers_eq]
  unfold opensLine
  cases config.lineComment with
  | none => simp
  | some opener => by_cases hopener : opener = "" <;> simp [hopener]

theorem opensBlock_iff {input : Source} :
    config.opensBlock input = true ↔
      ∃ opener closer, (opener, .block closer) ∈ config.openers ∧ opener.map .char <+: input := by
  rw [openers_eq]
  unfold opensBlock
  cases config.blockComment with
  | none => simp
  | some delimiters => by_cases hopener : delimiters.1 = "" <;> simp [hopener]

theorem opensLine_of_none {input : Source} (h : config.opening input = .none) :
    config.opensLine input = false := by
  rw [← Bool.not_eq_true, opensLine_iff]
  rintro ⟨opener, hmem, hbegins⟩
  exact opening_go_none h hmem hbegins

theorem opensBlock_of_none {input : Source} (h : config.opening input = .none) :
    config.opensBlock input = false := by
  rw [← Bool.not_eq_true, opensBlock_iff]
  rintro ⟨opener, closer, hmem, hbegins⟩
  exact opening_go_none h hmem hbegins

theorem opensLine_of_line {input body : Source} {opener : List Char}
    (h : config.opening input = .comment opener .line body) : config.opensLine input = true := by
  obtain ⟨hmem, hsplit⟩ := opening_go_comment_split h
  rw [opensLine_iff, hsplit]
  exact ⟨opener, hmem, List.prefix_append _ _⟩

theorem opensBlock_of_block {input body : Source} {opener closer : List Char}
    (h : config.opening input = .comment opener (.block closer) body) :
    config.opensBlock input = true ∧ config.opensLine input = false := by
  obtain ⟨hmem, hsplit⟩ := opening_go_comment_split h
  constructor
  . rw [opensBlock_iff, hsplit]
    exact ⟨opener, closer, hmem, List.prefix_append _ _⟩
  . have hmiss := (opening_eq_block_iff.1 h).2.2.2
    rw [← Bool.not_eq_true, opensLine, Option.any_eq_true]
    rintro ⟨other, hother, hopens⟩
    simp only [ne_eq, Bool.and_eq_true, decide_eq_true_eq] at hopens
    obtain ⟨hne, more, hmore⟩ := hopens
    have hprobe := hmiss other hother hne
    rw [← hmore, Source.probe_append] at hprobe
    simp at hprobe

theorem opens_iff {input : Source} :
    config.opensLine input = true ∨ config.opensBlock input = true ↔
      ∃ opener style, (opener, style) ∈ config.openers ∧ opener.map .char <+: input := by
  rw [opensLine_iff, opensBlock_iff]
  constructor
  . rintro (⟨opener, h⟩ | ⟨opener, closer, h⟩)
    . exact ⟨opener, .line, h⟩
    . exact ⟨opener, .block closer, h⟩
  . rintro ⟨opener, style, h⟩
    cases style with
    | line => exact Or.inl ⟨opener, h⟩
    | block closer => exact Or.inr ⟨opener, closer, h⟩

theorem endsWord_iff {input : Source} :
    config.endsWord input = true ↔
      input.startsWith Source.isLineBreak = true ∨ input.startsWith config.isWhitespace = true ∨
        input.startsWith config.isQuote = true ∨
        ∃ opener style, (opener, style) ∈ config.openers ∧ opener.map .char <+: input := by
  simp only [endsWord, Bool.or_eq_true, or_assoc, opens_iff]

theorem endsWord_of_goesOn {input : Source} (h : config.wordStop input = .goesOn) :
    config.endsWord input = false := by
  unfold wordStop at h
  split at h
  . simp at h
  . simp at h
  . split at h
    . simp at h
    . next hc =>
      split at h
      . next hnone =>
        simp only [Bool.or_eq_true, not_or, Bool.not_eq_true] at hc
        simp [endsWord, Source.startsWith, hc, opensLine_of_none hnone, opensBlock_of_none hnone]
      . simp at h
      . simp at h

theorem endsWord_of_ends {c : Char} {rest : Source} (h : config.wordStop (.char c :: rest) = .ends) :
    config.endsWord (.char c :: rest) = true := by
  unfold wordStop at h
  dsimp only at h
  split at h
  . next hc =>
    simp only [Bool.or_eq_true] at hc
    rcases hc with (hc | hc) | hc <;> simp [endsWord, Source.startsWith, hc]
  . split at h
    . simp at h
    . next opener style body hopening =>
      cases style with
      | line => simp [endsWord, opensLine_of_line hopening]
      | block closer => simp [endsWord, (opensBlock_of_block hopening).1]
    . simp at h

theorem wordLexeme_longest {c : Char} {rest : Source} {line : Nat}
    (h : config.wordLexeme c rest line = (.ok token, after)) :
    ∃ run : List Char, .char c :: rest = run.map .char ++ after.input ∧
      Source.Longest (fun run => ∀ n, 0 < n → n < run.length →
        config.endsWord ((Read.char c :: rest).drop n) = false) (.char c :: rest) run := by
  have hsplit := Source.takeUntil_split (fun rest => config.wordStop rest ≠ .goesOn) rest
  have hstops := @Source.takeUntil_stops (fun rest => config.wordStop rest ≠ .goesOn) rest
  have hpasses (n : Nat) := @Source.takeUntil_passes (fun rest => config.wordStop rest ≠ .goesOn) rest
    ((rest.takeUntil fun rest => config.wordStop rest ≠ .goesOn).1.take n)
    ((rest.takeUntil fun rest => config.wordStop rest ≠ .goesOn).1.drop n) (by simp)
  unfold wordLexeme at h
  dsimp only at h
  generalize (rest.takeUntil fun rest => config.wordStop rest ≠ .goesOn) = part at h hsplit hstops hpasses
  obtain ⟨text, next⟩ := part
  dsimp only at h hsplit hstops hpasses
  have hall : .char c :: rest = (c :: text).map .char ++ next := by rw [hsplit]; rfl
  split at h
  . simp at h
  . next hend =>
    simp only [Prod.mk.injEq, Except.ok.injEq] at h
    obtain ⟨_, rfl⟩ := h
    refine ⟨c :: text, hall, ?_⟩
    rw [hall]
    apply Source.longest_of_split
    . intro n hpos hlt
      obtain ⟨n, rfl⟩ : ∃ m, n = m + 1 := ⟨n - 1, by omega⟩
      have hlt : n < text.length := by simpa using hlt
      have hgoes := hpasses n (by simpa using hlt)
      simp only [ne_eq, decide_not, Bool.not_eq_eq_eq_not, Bool.not_false, decide_eq_true_eq] at hgoes
      have hdrop : List.drop (n + 1) ((c :: text).map Read.char ++ next) = (text.drop n).map .char ++ next := by
        rw [List.map_cons, List.cons_append, List.drop_succ_cons,
          List.drop_append_of_le_length (by simpa using Nat.le_of_lt hlt), List.map_drop]
      rw [hdrop]
      exact endsWord_of_goesOn hgoes
    . rintro d tail other rfl hbegins hlt hfits
      have hstop := hstops rfl
      have hdrop : List.drop (c :: text).length ((c :: text).map Read.char ++ .char d :: tail) = .char d :: tail :=
        List.drop_left' (by simp)
      have hfalse := hfits (c :: text).length (by simp) hlt
      rw [hdrop] at hfalse
      have hends : config.wordStop (.char d :: tail) = .ends := by
        cases hword : config.wordStop (.char d :: tail) with
        | goesOn => simp [hword] at hstop
        | ends => rfl
        | fault error rest => exact absurd hword (hend error rest)
      rw [endsWord_of_ends hends] at hfalse
      simp at hfalse

theorem first_blockComment {c : Char} {rest body : Source} {opener closer : List Char}
    (hw : config.isWhitespace c = false) (hd : c.isDigit = false) (hq : config.isQuote c = false)
    (hb : Source.isLineBreak c = false)
    (ho : config.opening (.char c :: rest) = .comment opener (.block closer) body) :
    Category.order.find? (·.fits config (.char c :: rest)) = some .blockComment := by
  obtain ⟨hblock, hline⟩ := opensBlock_of_block ho
  simp [Category.order, Category.fits, Source.startsWith, hw, hd, hq, hb, hblock, hline]

theorem first_word {c : Char} {rest : Source} (hw : config.isWhitespace c = false) (hd : c.isDigit = false)
    (hq : config.isQuote c = false) (hb : Source.isLineBreak c = false)
    (ho : config.opening (.char c :: rest) = .none) :
    Category.order.find? (·.fits config (.char c :: rest)) = some .word := by
  simp [Category.order, Category.fits, Source.startsWith, hw, hd, hq, hb, opensLine_of_none ho,
    opensBlock_of_none ho]

theorem lexeme_cut {input : Source} {line : Nat} (h : config.lexeme ⟨input, line⟩ = (.ok token, after))
    (hne : input ≠ []) : ∃ category chunk, config.Cut input category chunk after.input token := by
  obtain ⟨chunk, hsplit, hspells⟩ := lexeme_spells h hne
  dsimp only at hsplit
  -- A run that leaves what the scan leaves is the chunk.
  have hrun {fits : List Char → Prop}
      (hlongest : ∃ run : List Char, input = run.map .char ++ after.input ∧ input.Longest fits run) :
      input.Longest fits chunk := by
    obtain ⟨run, hrun, hlongest⟩ := hlongest
    rwa [Source.chars_eq (hrun.symm.trans hsplit)] at hlongest
  have hdispatch := config.lexeme_dispatch input line
  generalize config.lexeme ⟨input, line⟩ = scan at h hdispatch
  cases hdispatch with
  | ending => simp at hne
  | fault => simp at h
  | whitespace rest hw =>
    have hlongest := hrun (whitespaceLexeme_longest h)
    obtain ⟨rfl, _⟩ := Scan.finish_ok h
    refine ⟨.whitespace, chunk, hsplit, ?_, rfl, hspells, ?_⟩
    . simp [Category.order, Category.fits, Source.startsWith, hw]
    . simpa [Category.run?] using hlongest
  | number rest hw hd =>
    have hlongest := hrun (numberLexeme_longest h)
    obtain ⟨_, _, _, _, hkind⟩ := numberLexeme_ok h
    refine ⟨.number, chunk, hsplit, ?_, hkind, hspells, ?_⟩
    . simp [Category.order, Category.fits, Source.startsWith, hw, hd]
    . simpa [Category.run?] using hlongest
  | string rest hw hd hq =>
    refine ⟨.string, chunk, hsplit, ?_, stringLexeme_kind h, hspells, by simp [Category.run?]⟩
    simp [Category.order, Category.fits, Source.startsWith, hw, hd, hq]
  | newline rest hw hd hq hb =>
    refine ⟨.newline, chunk, hsplit, ?_, newlineLexeme_kind h, hspells, by simp [Category.run?]⟩
    simp [Category.order, Category.fits, Source.startsWith, hw, hd, hq, hb]
  | @comment c rest opener style body hw hd hq hb ho =>
    obtain ⟨hmem, hinput⟩ := opening_go_comment_split ho
    obtain ⟨_, _, hcomment⟩ := commentLexeme_comment h
    cases style with
    | line =>
      have hlongest := lineComment_longest h
      rw [← hinput] at hlongest
      replace hlongest := hrun hlongest
      refine ⟨.lineComment, chunk, hsplit, ?_, hcomment.kind, hspells, ?_⟩
      . simp [Category.order, Category.fits, Source.startsWith, hw, hd, hq, hb, opensLine_of_line ho]
      . obtain ⟨_, hline⟩ | ⟨_, hstyle, _⟩ := mem_openers hmem
        . simpa [Category.run?, hline] using hlongest
        . simp at hstyle
    | block closer =>
      exact ⟨.blockComment, chunk, hsplit, first_blockComment hw hd hq hb ho, hcomment.kind, hspells,
        by simp [Category.run?]⟩
  | openingFault => simp at h
  | word hw hd hq hb ho =>
    have hlongest := hrun (wordLexeme_longest h)
    refine ⟨.word, chunk, hsplit, first_word hw hd hq hb ho, wordLexeme_kind h, hspells, ?_⟩
    simpa [Category.run?] using hlongest

namespace Cut

variable {input rest : Source} {chunk opener : List Char}

theorem not_opens (h : config.Cut input .word chunk rest token) {n : Nat} (hn : n < chunk.length)
    {style : CommentStyle} (hmem : (opener, style) ∈ config.openers) : ¬opener.map .char <+: input.drop n := by
  intro hbegins
  by_cases hpos : 0 < n
  . have hgoes := (h.longest _ rfl).holds n hpos hn
    rw [endsWord_iff.2 (Or.inr (Or.inr (Or.inr ⟨opener, style, hmem, hbegins⟩)))] at hgoes
    simp at hgoes
  . obtain rfl : n = 0 := by omega
    have hline := Category.not_fits_of_first h.first .lineComment (by decide)
    have hblock := Category.not_fits_of_first h.first .blockComment (by decide)
    rcases opens_iff.2 ⟨opener, style, hmem, hbegins⟩ with hopens | hopens
    . exact Bool.false_ne_true (hline.symm.trans hopens)
    . exact Bool.false_ne_true (hblock.symm.trans hopens)

theorem not_opensLine (h : config.Cut input .blockComment chunk rest token)
    (hmem : (opener, .line) ∈ config.openers) : ¬opener.map .char <+: input := by
  intro hbegins
  have hline := Category.not_fits_of_first h.first .lineComment (by decide)
  exact Bool.false_ne_true (hline.symm.trans (opensLine_iff.2 ⟨opener, hmem, hbegins⟩))

end Cut

end Config

end TokenGrammar
