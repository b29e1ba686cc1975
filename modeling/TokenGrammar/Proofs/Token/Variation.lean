import TokenGrammar.Proofs.Token.Lexeme

/-!
Texts that a scan cannot tell apart. A `Variation` says which characters may stand for one another, none of
which means anything to a scan, and whether line breaks may be written in another way. Two texts that vary
in this way have the same lines, the same delimiters start in both, and what is taken off the one up to a
character, a delimiter or the end of a run corresponds to what is taken off the other (`Variation.Parts`).
-/

namespace TokenGrammar

namespace Source

theorem takeUntil_go_eq (stop : Source → Bool) (taken : List Char) (input : Source) :
    takeUntil.go stop taken input =
      (taken.reverse ++ (takeUntil stop input).1, (takeUntil stop input).2) := by
  unfold takeUntil
  induction input generalizing taken with
  | nil => simp [takeUntil.go]
  | cons read rest ih =>
    cases read with
    | fault error => simp [takeUntil.go]
    | char c =>
      unfold takeUntil.go
      split
      . simp
      . rw [ih (c :: taken), ih [c]]
        simp

theorem takeUntil_cons (stop : Source → Bool) (c : Char) (rest : Source) :
    takeUntil stop (.char c :: rest) =
      if stop (.char c :: rest) then ([], .char c :: rest)
      else (c :: (takeUntil stop rest).1, (takeUntil stop rest).2) := by
  conv => lhs; unfold takeUntil takeUntil.go
  rw [takeUntil_go_eq]
  rfl

theorem lineBreaks_go_eq (breaks n : Nat) (input : Source) :
    lineBreaks.go breaks n input = breaks + lineBreaks n input := by
  unfold lineBreaks
  induction input generalizing breaks n with
  | nil =>
    unfold lineBreaks.go
    simp
  | cons read rest ih =>
    cases n with
    | zero => simp [lineBreaks.go]
    | succ n =>
      cases read with
      | fault error => simp [lineBreaks.go]
      | char c =>
        unfold lineBreaks.go
        rw [ih, ih (0 + breakAt c rest)]
        omega

theorem lineBreaks_zero (input : Source) : lineBreaks 0 input = 0 := by
  cases input <;> rfl

theorem lineBreaks_cons (n : Nat) (c : Char) (rest : Source) :
    lineBreaks (n + 1) (.char c :: rest) = breakAt c rest + lineBreaks n rest := by
  conv => lhs; unfold lineBreaks lineBreaks.go
  rw [lineBreaks_go_eq]
  omega

theorem breakAt_return {cs : List Char} (h : cs.head? ≠ some '\n') : breakAt '\r' (cs.map .char) = 1 := by
  cases cs with
  | nil => rfl
  | cons c cs =>
    simp only [List.head?_cons, ne_eq, Option.some.injEq] at h
    simp [breakAt, h]

theorem takeRun_all (p : Char → Bool) (cs : List Char) :
    ∀ c ∈ (takeRun p (cs.map .char)).1, p c = true := by
  unfold takeRun
  induction cs with
  | nil => simp [takeUntil, takeUntil.go]
  | cons c cs ih =>
    rw [List.map_cons, takeUntil_cons]
    split
    . simp
    . next hgo =>
      have hc : p c = true := by simpa [startsWith] using hgo
      intro d hd
      rcases List.mem_cons.1 hd with rfl | hd
      . exact hc
      . exact ih d hd

end Source

namespace Config

theorem stringBody_go_eq (quote : Char) (escape previous : Option Char) (taken : List Char)
    (input : Source) :
    stringBody.go quote escape previous taken input =
      (taken.reverse ++ (stringBody.go quote escape previous [] input).1,
        (stringBody.go quote escape previous [] input).2) := by
  induction input generalizing previous taken with
  | nil => simp [stringBody.go]
  | cons read rest ih =>
    cases read with
    | fault error => simp [stringBody.go]
    | char c =>
      unfold stringBody.go
      split
      . simp
      . rw [ih (some c) (c :: taken), ih (some c) [c]]
        simp

theorem stringBody_go_cons (quote : Char) (escape previous : Option Char) (c : Char) (rest : Source) :
    stringBody.go quote escape previous [] (.char c :: rest) =
      if c = quote && (escape.isNone || previous ≠ escape) then ([], .char c :: rest)
      else
        (c :: (stringBody.go quote escape (some c) [] rest).1,
          (stringBody.go quote escape (some c) [] rest).2) := by
  conv => lhs; unfold stringBody.go
  rw [stringBody_go_eq]
  rfl

theorem eq_quote_of_stringBody_go {quote c : Char} {escape previous : Option Char} {taken : List Char}
    {input rest : Source} (h : (stringBody.go quote escape previous taken input).2 = .char c :: rest) :
    c = quote := by
  induction input generalizing previous taken with
  | nil => simp [stringBody.go] at h
  | cons read input ih =>
    cases read with
    | fault error => simp [stringBody.go] at h
    | char d =>
      unfold stringBody.go at h
      split at h
      . next hclose =>
        simp only [List.cons.injEq, Read.char.injEq] at h
        simp only [Bool.and_eq_true, decide_eq_true_eq] at hclose
        rw [← h.1, hclose.1]
      . exact ih h

def marks (config : Config) : List Char :=
  config.whitespace ++ config.quotes ++ config.escape.toList ++
    config.lineComment.toList.flatMap String.toList ++
    config.blockComment.toList.flatMap fun (opener, closer) => opener.toList ++ closer.toList

inductive Minds (config : Config) : Char → Prop
  | mark {c : Char} : c ∈ config.marks → Minds config c
  | digit {c : Char} : c.isDigit = true → Minds config c
  | point : Minds config '.'
  | lineBreak {c : Char} : Source.isLineBreak c = true → Minds config c

theorem mem_marks_of_isWhitespace {config : Config} {c : Char} (h : config.isWhitespace c = true) :
    c ∈ config.marks := by
  have hc : c ∈ config.whitespace := by simpa [isWhitespace] using h
  simp [marks, hc]

theorem mem_marks_of_isQuote {config : Config} {c : Char} (h : config.isQuote c = true) :
    c ∈ config.marks := by
  have hc : c ∈ config.quotes := by simpa [isQuote] using h
  simp [marks, hc]

theorem mem_marks_of_activeEscape {config : Config} {c : Char} (h : config.activeEscape = some c) :
    c ∈ config.marks := by
  unfold activeEscape at h
  split at h
  . simp [marks, h]
  . simp at h

theorem mem_marks_of_openers {config : Config} {opener : List Char} {style : CommentStyle}
    (h : (opener, style) ∈ config.openers) :
    (∀ c ∈ opener, c ∈ config.marks) ∧
      ∀ closer, style = .block closer → ∀ c ∈ closer, c ∈ config.marks := by
  simp only [openers, List.mem_filter, List.mem_append, List.mem_map, Option.mem_toList,
    Prod.mk.injEq] at h
  rcases h.1 with ⟨text, htext, rfl, rfl⟩ | ⟨⟨first, last⟩, htexts, rfl, rfl⟩
  . constructor
    . intro c hc
      simp [marks, htext, hc]
    . simp
  . constructor
    . intro c hc
      simp [marks, htexts, hc]
    . intro closer hstyle c hc
      cases hstyle
      simp [marks, htexts, hc]

end Config

structure Variation (config : Config) where
  char : Char → Char → Prop
  breaks : Prop
  same {c : Char} : (breaks → c ≠ '\r') → char c c
  changed {c d : Char} : char c d → c = d ∨ ¬config.Minds c ∧ ¬config.Minds d
  free : breaks → ∀ c ∈ config.marks, Source.isLineBreak c = false
  plain {c d : Char} : breaks → char c d → c ≠ '\r'

namespace Variation

variable {config : Config} (v : Variation config)

/--
The second text is a variant of the first, before `rest`. What follows a carriage return decides what
it becomes.
-/
inductive Like (rest : List Char) : List Char → List Char → Prop
  | nil : Like rest [] []
  | char {c d : Char} {cs ds : List Char} : v.char c d → Like rest cs ds → Like rest (c :: cs) (d :: ds)
  | pair {cs ds : List Char} : v.breaks → Like rest cs ds → Like rest ('\r' :: '\n' :: cs) ('\n' :: ds)
  | single {cs ds : List Char} : v.breaks → (cs ++ rest).head? ≠ some '\n' → Like rest cs ds →
    Like rest ('\r' :: cs) ('\n' :: ds)

variable {v}

theorem test_eq {p : Char → Bool} (hp : ∀ c, p c = true → config.Minds c) {c d : Char} (h : v.char c d) :
    p c = p d := by
  rcases v.changed h with rfl | ⟨hc, hd⟩
  . rfl
  . rw [Bool.eq_iff_iff]
    exact ⟨fun hpc => absurd (hp c hpc) hc, fun hpd => absurd (hp d hpd) hd⟩

theorem eq_iff {x : Char} (hx : config.Minds x) {c d : Char} (h : v.char c d) : c = x ↔ d = x := by
  rcases v.changed h with rfl | ⟨hc, hd⟩
  . rfl
  . constructor
    . rintro rfl
      contradiction
    . rintro rfl
      contradiction

theorem isLineBreak_eq {c d : Char} (h : v.char c d) : Source.isLineBreak c = Source.isLineBreak d := by
  apply test_eq _ h
  exact fun c hc => .lineBreak hc

theorem isDigit_eq {c d : Char} (h : v.char c d) : c.isDigit = d.isDigit := by
  apply test_eq _ h
  exact fun c hc => .digit hc

theorem isWhitespace_eq {c d : Char} (h : v.char c d) : config.isWhitespace c = config.isWhitespace d := by
  apply test_eq _ h
  exact fun c hc => .mark (Config.mem_marks_of_isWhitespace hc)

theorem isQuote_eq {c d : Char} (h : v.char c d) : config.isQuote c = config.isQuote d := by
  apply test_eq _ h
  exact fun c hc => .mark (Config.mem_marks_of_isQuote hc)

theorem ne_of_free (hb : v.breaks) {c : Char} (hc : c ∈ config.marks) : c ≠ '\r' ∧ c ≠ '\n' := by
  have hfree := v.free hb c hc
  simp only [Source.isLineBreak, Bool.or_eq_false_iff, decide_eq_false_iff_not] at hfree
  exact hfree

theorem not_mark (hb : v.breaks) {c : Char} (hc : Source.isLineBreak c = true) : c ∉ config.marks := by
  intro hmem
  have hfree := v.free hb c hmem
  simp [hc] at hfree

theorem isWhitespace_break (hb : v.breaks) {c : Char} (hc : Source.isLineBreak c = true) :
    config.isWhitespace c = false := by
  cases h : config.isWhitespace c with
  | false => rfl
  | true => exact absurd (Config.mem_marks_of_isWhitespace h) (not_mark hb hc)

theorem isQuote_break (hb : v.breaks) {c : Char} (hc : Source.isLineBreak c = true) :
    config.isQuote c = false := by
  cases h : config.isQuote c with
  | false => rfl
  | true => exact absurd (Config.mem_marks_of_isQuote h) (not_mark hb hc)

/-! Variants side by side. -/

namespace Like

variable {rest rest' cs ds cs' ds' : List Char}

theorem context (h : v.Like rest cs ds) (hrest : v.breaks → rest'.head? ≠ some '\n') :
    v.Like rest' cs ds := by
  induction h with
  | nil => exact .nil
  | char hc _ ih => exact .char hc ih
  | pair hb _ ih => exact .pair hb ih
  | @single cs ds hb hn _ ih =>
    apply Like.single hb _ ih
    cases cs with
    | nil => exact hrest hb
    | cons c cs => exact hn

theorem alone (h : v.Like rest cs ds) : v.Like [] cs ds := by
  apply h.context
  simp

theorem append (h : v.Like cs' cs ds) (h' : v.Like [] cs' ds') : v.Like [] (cs ++ cs') (ds ++ ds') := by
  induction h with
  | nil => exact h'
  | char hc _ ih => exact .char hc ih
  | pair hb _ ih => exact .pair hb ih
  | single hb hn _ ih =>
    apply Like.single hb _ ih
    rw [List.append_nil]
    exact hn

theorem refl (hcs : ∀ c ∈ cs, v.breaks → c ≠ '\r') : v.Like rest cs cs := by
  induction cs with
  | nil => exact .nil
  | cons c cs ih =>
    apply Like.char (v.same (hcs c (by simp)))
    apply ih
    intro d hd
    exact hcs d (by simp [hd])

theorem of_marks (hcs : ∀ c ∈ cs, c ∈ config.marks) : v.Like rest cs cs := by
  apply refl
  intro c hc hb
  exact (ne_of_free hb (hcs c hc)).1

theorem between_marks (h : v.Like rest cs ds) {opener closer : List Char}
    (hopener : ∀ c ∈ opener, c ∈ config.marks) (hcloser : ∀ c ∈ closer, c ∈ config.marks) :
    v.Like [] (opener ++ cs ++ closer) (opener ++ ds ++ closer) := by
  have hcontext : v.Like closer cs ds := by
    apply h.context
    intro hb hhead
    exact (ne_of_free hb (hcloser _ (List.mem_of_head? hhead))).2 rfl
  rw [List.append_assoc, List.append_assoc]
  exact (of_marks hopener).append (hcontext.append (of_marks hcloser))

theorem eq_of_digits (h : v.Like rest cs ds) (hdigits : ∀ c ∈ cs, c.isDigit = true) : cs = ds := by
  induction h with
  | nil => rfl
  | @char c d cs ds hc _ ih =>
    have hminds : config.Minds c := .digit (hdigits c (by simp))
    rw [ih fun x hx => hdigits x (by simp [hx]), (eq_iff hminds hc).1 rfl]
  | pair => simp at hdigits
  | single => simp at hdigits

end Like

/-! Lines. -/

theorem breakAt_like {c d : Char} {cs ds : List Char} (hc : v.char c d) (h : v.Like [] cs ds) :
    Source.breakAt c (cs.map .char) = Source.breakAt d (ds.map .char) := by
  rcases v.changed hc with rfl | ⟨hno, hno'⟩
  . by_cases hr : c = '\r'
    . -- With line breaks rewritten, no carriage return stands for itself.
      have hbreaks : ¬v.breaks := fun hb => v.plain hb hc hr
      subst hr
      cases h with
      | nil => rfl
      | @char x y _ _ hxy _ =>
        have hiff : x = '\n' ↔ y = '\n' := eq_iff (.lineBreak rfl) hxy
        simp [Source.breakAt, hiff]
      | pair hb => contradiction
      | single hb => contradiction
    . simp [Source.breakAt, hr]
  . have hplain := mt Config.Minds.lineBreak hno
    have hplain' := mt Config.Minds.lineBreak hno'
    simp only [Source.isLineBreak, Bool.or_eq_true, decide_eq_true_eq, not_or] at hplain hplain'
    simp [Source.breakAt, hplain, hplain']

theorem lineBreaks_like {ts ts' rs rs' : List Char} (h : v.Like rs ts ts') (hr : v.Like [] rs rs') :
    Source.lineBreaks ts.length ((ts ++ rs).map .char) =
      Source.lineBreaks ts'.length ((ts' ++ rs').map .char) := by
  induction h with
  | nil => simp [Source.lineBreaks, Source.lineBreaks.go]
  | char hc ht ih =>
    have hbreak := breakAt_like hc (ht.append hr)
    simp only [List.length_cons, List.cons_append, List.map_cons, Source.lineBreaks_cons]
    rw [hbreak, ih]
  | pair hb _ ih =>
    simp only [List.length_cons, List.cons_append, List.map_cons, Source.lineBreaks_cons]
    rw [ih]
    simp [Source.breakAt]
  | single hb hn _ ih =>
    simp only [List.length_cons, List.cons_append, List.map_cons, Source.lineBreaks_cons]
    rw [ih, Source.breakAt_return hn]
    simp [Source.breakAt]

/-! Delimiters. -/

variable (v) in
inductive Probes : Probe → Probe → Prop
  | miss : Probes .miss .miss
  | hit {cs ds : List Char} : v.Like [] cs ds → Probes (.hit (cs.map .char)) (.hit (ds.map .char))

theorem probe_like {delimiter : List Char} (hd : ∀ c ∈ delimiter, c ∈ config.marks) {cs ds : List Char}
    (h : v.Like [] cs ds) :
    v.Probes (Source.probe delimiter (cs.map .char)) (Source.probe delimiter (ds.map .char)) := by
  induction delimiter generalizing cs ds with
  | nil => exact .hit h
  | cons x delimiter ih =>
    have hx : x ∈ config.marks := hd x (by simp)
    cases h with
    | nil => exact .miss
    | char hc hr =>
      have hiff := eq_iff (.mark hx) hc
      simp only [List.map_cons, Source.probe, hiff]
      split
      . apply ih _ hr
        intro y hy
        exact hd y (by simp [hy])
      . exact .miss
    | pair hb hr =>
      obtain ⟨hx, hx'⟩ := ne_of_free hb hx
      simp only [List.map_cons, Source.probe, hx.symm, hx'.symm, ↓reduceIte]
      exact .miss
    | single hb hn hr =>
      obtain ⟨hx, hx'⟩ := ne_of_free hb hx
      simp only [List.map_cons, Source.probe, hx.symm, hx'.symm, ↓reduceIte]
      exact .miss

variable (v) in
inductive Openings : Opening → Opening → Prop
  | none : Openings .none .none
  | comment {opener : List Char} {style : CommentStyle} {cs ds : List Char} :
    (opener, style) ∈ config.openers → v.Like [] cs ds →
    Openings (.comment opener style (cs.map .char)) (.comment opener style (ds.map .char))

theorem opening_go_like {cs ds : List Char} (h : v.Like [] cs ds)
    {openers : List (List Char × CommentStyle)} (hopeners : ∀ first ∈ openers, first ∈ config.openers) :
    v.Openings (Config.opening.go (cs.map .char) openers) (Config.opening.go (ds.map .char) openers) := by
  induction openers with
  | nil => exact .none
  | cons first openers ih =>
    obtain ⟨opener, style⟩ := first
    have hfirst : (opener, style) ∈ config.openers := hopeners _ (by simp)
    have hprobe := probe_like (Config.mem_marks_of_openers hfirst).1 h
    unfold Config.opening.go
    generalize Source.probe opener (cs.map .char) = probe at hprobe
    generalize Source.probe opener (ds.map .char) = probe' at hprobe
    cases hprobe with
    | hit hr => exact .comment hfirst hr
    | miss =>
      apply ih
      intro other hother
      exact hopeners other (by simp [hother])

theorem opening_like {cs ds : List Char} (h : v.Like [] cs ds) :
    v.Openings (config.opening (cs.map .char)) (config.opening (ds.map .char)) := by
  apply opening_go_like h
  intro first hfirst
  exact hfirst

theorem wordStop_of_lineBreak {c : Char} (h : Source.isLineBreak c = true) (rest : Source) :
    config.wordStop (.char c :: rest) = .ends := by
  simp [Config.wordStop, h]

theorem wordStop_like {cs ds : List Char} (h : v.Like [] cs ds) :
    config.wordStop (cs.map .char) = .goesOn ∧ config.wordStop (ds.map .char) = .goesOn ∨
      config.wordStop (cs.map .char) = .ends ∧ config.wordStop (ds.map .char) = .ends := by
  have hopening := opening_like h
  cases h with
  | nil => exact Or.inr ⟨rfl, rfl⟩
  | @char c d cs ds hc hr =>
    have hbreak := isLineBreak_eq hc
    have hwhitespace := isWhitespace_eq hc
    have hquote := isQuote_eq hc
    simp only [List.map_cons] at hopening ⊢
    unfold Config.wordStop
    dsimp only
    rw [hbreak, hwhitespace, hquote]
    split
    . exact Or.inr ⟨rfl, rfl⟩
    . generalize config.opening (.char c :: cs.map .char) = opening at hopening
      generalize config.opening (.char d :: ds.map .char) = opening' at hopening
      cases hopening with
      | none => exact Or.inl ⟨rfl, rfl⟩
      | comment => exact Or.inr ⟨rfl, rfl⟩
  | pair hb hr => exact Or.inr ⟨wordStop_of_lineBreak rfl _, wordStop_of_lineBreak rfl _⟩
  | single hb hn hr => exact Or.inr ⟨wordStop_of_lineBreak rfl _, wordStop_of_lineBreak rfl _⟩

/-! Splitting variants. -/

variable (v) in
inductive Parts : List Char → List Char → List Char × Source → List Char × Source → Prop
  | mk {ts ts' rs rs' : List Char} : v.Like rs ts ts' → v.Like [] rs rs' →
    Parts (ts ++ rs) (ts' ++ rs') (ts, rs.map .char) (ts', rs'.map .char)

namespace Parts

variable {cs ds : List Char} {part part' : List Char × Source}

theorem stop (h : v.Like [] cs ds) : v.Parts cs ds ([], cs.map .char) ([], ds.map .char) := by
  exact .mk .nil h

theorem char {c d : Char} (hc : v.char c d) (h : v.Parts cs ds part part') :
    v.Parts (c :: cs) (d :: ds) (c :: part.1, part.2) (d :: part'.1, part'.2) := by
  cases h with
  | mk htaken hrest => exact .mk (.char hc htaken) hrest

theorem pair (hb : v.breaks) (h : v.Parts cs ds part part') :
    v.Parts ('\r' :: '\n' :: cs) ('\n' :: ds) ('\r' :: '\n' :: part.1, part.2)
      ('\n' :: part'.1, part'.2) := by
  cases h with
  | mk htaken hrest => exact .mk (.pair hb htaken) hrest

theorem single (hb : v.breaks) (hn : (cs ++ []).head? ≠ some '\n') (h : v.Parts cs ds part part') :
    v.Parts ('\r' :: cs) ('\n' :: ds) ('\r' :: part.1, part.2) ('\n' :: part'.1, part'.2) := by
  cases h with
  | mk htaken hrest =>
    rw [List.append_nil] at hn
    exact .mk (.single hb hn htaken) hrest

theorem lineBreaks (h : v.Parts cs ds part part') :
    Source.lineBreaks part.1.length (cs.map .char) = Source.lineBreaks part'.1.length (ds.map .char) := by
  cases h with
  | mk htaken hrest => exact lineBreaks_like htaken hrest

end Parts

theorem takeUntil_like {stop : Source → Bool}
    (hstop : ∀ {cs ds}, v.Like [] cs ds → stop (cs.map .char) = stop (ds.map .char))
    (hpair : v.breaks → ∀ cs, stop (.char '\r' :: .char '\n' :: cs) = false →
      stop (.char '\n' :: cs) = false)
    {cs ds : List Char} (h : v.Like [] cs ds) :
    v.Parts cs ds (Source.takeUntil stop (cs.map .char)) (Source.takeUntil stop (ds.map .char)) := by
  induction h with
  | nil => exact .stop .nil
  | char hc hr ih =>
    have hs := hstop (.char hc hr)
    simp only [List.map_cons] at hs ⊢
    rw [Source.takeUntil_cons, Source.takeUntil_cons, hs]
    split
    . exact .stop (.char hc hr)
    . exact .char hc ih
  | @pair cs ds hb hr ih =>
    have hs := hstop (.pair hb hr)
    simp only [List.map_cons] at hs ⊢
    cases hgo : stop (.char '\r' :: .char '\n' :: cs.map .char) with
    | true =>
      rw [hgo] at hs
      simp only [Source.takeUntil_cons, hgo, ← hs, ↓reduceIte]
      exact .stop (.pair hb hr)
    | false =>
      rw [hgo] at hs
      simp only [Source.takeUntil_cons, hgo, ← hs, hpair hb _ hgo, Bool.false_eq_true, ↓reduceIte]
      exact .pair hb ih
  | single hb hn hr ih =>
    have hs := hstop (.single hb hn hr)
    simp only [List.map_cons] at hs ⊢
    rw [Source.takeUntil_cons, Source.takeUntil_cons, hs]
    split
    . exact .stop (.single hb hn hr)
    . exact .single hb hn ih

theorem takeRun_like {p : Char → Bool} (hp : ∀ {c d}, v.char c d → p c = p d)
    (hbreaks : v.breaks → p '\r' = p '\n') {cs ds : List Char} (h : v.Like [] cs ds) :
    v.Parts cs ds (Source.takeRun p (cs.map .char)) (Source.takeRun p (ds.map .char)) := by
  apply takeUntil_like _ _ h
  . intro cs ds h
    cases h with
    | nil => rfl
    | char hc => simp [Source.startsWith, hp hc]
    | pair hb => simp [Source.startsWith, hbreaks hb]
    | single hb => simp [Source.startsWith, hbreaks hb]
  . intro hb cs
    simp [Source.startsWith, hbreaks hb]

theorem eq_activeEscape_iff {c d : Char} (h : v.char c d) :
    some c = config.activeEscape ↔ some d = config.activeEscape := by
  cases hescape : config.activeEscape with
  | none => simp
  | some x =>
    rw [Option.some.injEq, Option.some.injEq]
    exact eq_iff (.mark (Config.mem_marks_of_activeEscape hescape)) h

theorem ne_activeEscape (hb : v.breaks) {c : Char} (hc : Source.isLineBreak c = true) :
    some c ≠ config.activeEscape := by
  intro hescape
  exact not_mark hb hc (Config.mem_marks_of_activeEscape hescape.symm)

theorem stringBody_go_like {quote : Char} (hq : quote ∈ config.marks) {previous previous' : Option Char}
    (hp : previous = config.activeEscape ↔ previous' = config.activeEscape) {cs ds : List Char}
    (h : v.Like [] cs ds) :
    v.Parts cs ds (Config.stringBody.go quote config.activeEscape previous [] (cs.map .char))
      (Config.stringBody.go quote config.activeEscape previous' [] (ds.map .char)) := by
  induction h generalizing previous previous' with
  | nil => exact .stop .nil
  | char hc hr ih =>
    have hnext := ih (eq_activeEscape_iff hc)
    simp only [List.map_cons, Config.stringBody_go_cons, eq_iff (.mark hq) hc, ne_eq, hp]
    split
    . exact .stop (.char hc hr)
    . exact .char hc hnext
  | pair hb hr ih =>
    obtain ⟨hreturn, hfeed⟩ := ne_of_free hb hq
    simp only [List.map_cons, Config.stringBody_go_cons, hreturn.symm, hfeed.symm, decide_false,
      Bool.false_and, Bool.false_eq_true, ↓reduceIte]
    exact .pair hb (ih Iff.rfl)
  | single hb hn hr ih =>
    obtain ⟨hreturn, hfeed⟩ := ne_of_free hb hq
    have hescape : some '\r' = config.activeEscape ↔ some '\n' = config.activeEscape :=
      iff_of_false (ne_activeEscape hb rfl) (ne_activeEscape hb rfl)
    have hnext := ih hescape
    simp only [List.map_cons, Config.stringBody_go_cons, hreturn.symm, hfeed.symm, decide_false,
      Bool.false_and, Bool.false_eq_true, ↓reduceIte]
    exact .single hb hn hnext

theorem digits_like {cs ds : List Char} (h : v.Like [] cs ds) :
    ∃ digits rs rs', Source.takeRun Char.isDigit (cs.map .char) = (digits, rs.map .char) ∧
      Source.takeRun Char.isDigit (ds.map .char) = (digits, rs'.map .char) ∧
      v.Like [] digits digits ∧ v.Like [] rs rs' := by
  have hall := Source.takeRun_all Char.isDigit cs
  have hparts := takeRun_like isDigit_eq (fun _ => rfl) h
  generalize Source.takeRun Char.isDigit (cs.map .char) = part at hall hparts
  generalize Source.takeRun Char.isDigit (ds.map .char) = part' at hparts
  cases hparts with
  | mk htaken hrest =>
    have heq := htaken.eq_of_digits hall
    subst heq
    exact ⟨_, _, _, rfl, rfl, htaken.alone, hrest⟩

theorem numeral_like {cs ds : List Char} (h : v.Like [] cs ds) :
    ∃ whole places rs rs', Config.numeral (cs.map .char) = (whole, places, rs.map .char) ∧
      Config.numeral (ds.map .char) = (whole, places, rs'.map .char) ∧
      v.Like [] (Config.numeralText whole places) (Config.numeralText whole places) ∧ v.Like [] rs rs' := by
  obtain ⟨whole, rs, rs', hrun, hrun', hwhole, hrest⟩ := digits_like h
  unfold Config.numeral
  rw [hrun, hrun']
  cases hrest with
  | nil => exact ⟨whole, none, [], [], rfl, rfl, hwhole, .nil⟩
  | @char x y rs rs' hx hr =>
    have hpoint : x = '.' ↔ y = '.' := eq_iff .point hx
    by_cases hxp : x = '.'
    . have hyp := hpoint.1 hxp
      subst hxp hyp
      obtain ⟨places, qs, qs', hplaces, hplaces', hlike, hrest⟩ := digits_like hr
      simp only [List.map_cons, hplaces, hplaces']
      refine ⟨whole, some places, qs, qs', rfl, rfl, ?_, hrest⟩
      apply Like.append _ (.char hx hlike)
      apply hwhole.context
      simp
    . have hyp := mt hpoint.2 hxp
      refine ⟨whole, none, x :: rs, y :: rs', ?_, ?_, hwhole, .char hx hr⟩
      . simp [hxp]
      . simp [hyp]
  | @pair rs rs' hb hr =>
    exact ⟨whole, none, '\r' :: '\n' :: rs, '\n' :: rs', by simp, by simp, hwhole, .pair hb hr⟩
  | @single rs rs' hb hn hr =>
    exact ⟨whole, none, '\r' :: rs, '\n' :: rs', by simp, by simp, hwhole, .single hb hn hr⟩

end Variation

end TokenGrammar
