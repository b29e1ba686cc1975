import TokenGrammar.Proofs.Turtle.Name

/-!
What the forms of a statement take off the tokens to come, whether they match or not. Nothing is put back
when a form fails half way, but what it has taken by then is a sequence of calls, since every keyword is a
name and a name may have numbers after it. The one exception is a block that is not closed; then no rule
matches at the place where the block has come to an end (`FormRead`).
-/

namespace TokenGrammar.Grammar.Turtle

def pieces (t : Tokenizer) : List Token :=
  t.remaining.flatMap loosened

def Took (t : Tokenizer) (taken : List Token) (t' : Tokenizer) : Prop :=
  pieces t = taken ++ pieces t'

def Stuck (t : Tokenizer) : Prop :=
  ∀ token ∈ t.remaining.head?, startsName token = false

-- No statement begins here, and blocks that have come to an end without being closed stay so.
structure Halted (n : Nat) (t : Tokenizer) : Prop where
  stuck : Stuck t
  unclosed : 0 < n → ∀ token ∈ t.remaining.head?, spells "\x7d" token = false

structure Dead (t : Tokenizer) : Prop where
  stuck : Stuck t
  next : ∃ token ∈ t.remaining.head?, spells "\x7d" token = false

inductive Ends (t t' : Tokenizer) : Prop where
  | halted {n : Nat} {taken : List Token} : Unclosed n taken → Took t taken t' → Halted n t' → Ends t t'
  | dead : Dead t' → Ends t t'

inductive FormRead (t t' : Tokenizer) : Bool → Prop where
  | matched {taken : List Token} : Derives .statement taken → Took t taken t' → FormRead t t' true
  | failed {taken : List Token} : Derives .body taken → Took t taken t' → FormRead t t' false
  | ended : Ends t t' → FormRead t t' false

inductive BlockRead (t t' : Tokenizer) : Bool → Prop where
  | matched {taken : List Token} : Derives .block taken → Took t taken t' → BlockRead t t' true
  | none : t'.remaining = t.remaining → BlockRead t t' false
  | unclosed {opener : Token} {n : Nat} {taken : List Token} :
    spells "\x7b" opener = true → Unclosed n taken → Took t (opener :: taken) t' → Halted (n + 1) t' →
      BlockRead t t' false
  | dead : Dead t' → BlockRead t t' false

section

variable {t u t' : Tokenizer} {taken taken' : List Token} {token : Token} {n : Nat}

theorem Took.trans (h : Took t taken u) (h' : Took u taken' t') : Took t (taken ++ taken') t' := by
  unfold Took at *
  rw [h, h', List.append_assoc]

theorem took_nil (h : t'.remaining = t.remaining) : Took t [] t' := by
  simp [Took, pieces, h]

theorem took_singleton (h : t.remaining = token :: t'.remaining) (hsame : loosened token = [token]) :
    Took t [token] t' := by
  simp [Took, pieces, h, hsame]

theorem Stuck.of_remaining (h : Stuck t) (hsame : t'.remaining = t.remaining) : Stuck t' := by
  unfold Stuck
  rw [hsame]
  exact h

theorem Halted.of_remaining (h : Halted n t) (hsame : t'.remaining = t.remaining) : Halted n t' := by
  constructor
  . exact h.stuck.of_remaining hsame
  . rw [hsame]
    exact h.unclosed

theorem Dead.of_remaining (h : Dead t) (hsame : t'.remaining = t.remaining) : Dead t' := by
  constructor
  . exact h.stuck.of_remaining hsame
  . rw [hsame]
    exact h.next

theorem Ends.stuck (h : Ends t t') : Stuck t' := by
  cases h with
  | halted _ _ h => exact h.stuck
  | dead h => exact h.stuck

theorem Ends.prepend (hbody : Derives .body taken) (htook : Took t taken u) (h : Ends u t') : Ends t t' := by
  cases h with
  | halted hunclosed htook' hhalted => exact Ends.halted (hunclosed.prepend hbody) (htook.trans htook') hhalted
  | dead h => exact Ends.dead h

theorem Ends.of_remaining (h : Ends t u) (hsame : t'.remaining = u.remaining) : Ends t t' := by
  cases h with
  | halted hunclosed htook hhalted =>
    apply Ends.halted hunclosed _ (hhalted.of_remaining hsame)
    simpa [Took, pieces, hsame] using htook
  | dead h => exact Ends.dead (h.of_remaining hsame)

theorem startsName_of_isName (h : isName token = true) : startsName token = true := by
  simp only [isName, Bool.and_eq_true] at h
  cases htext : token.text.toList with
  | nil => simp [htext, isIdentifier] at h
  | cons c cs =>
    simp only [htext, isIdentifier, Bool.and_eq_true] at h
    simp [startsName, htext, h.1, h.2.1]

theorem not_stuck_of_isName (h : t.remaining = token :: t'.remaining) (hname : isName token = true) :
    ¬Stuck t := by
  intro hstuck
  have := hstuck token (by simp [h])
  simp [startsName_of_isName hname] at this

theorem derives_call (h : isName token = true) : Derives .body [token] := by
  exact (DerivesCalling.call trivial h (by simp)).single

end

structure FormOutcome (t : Tokenizer) (b : Bool) (t' : Tokenizer) : Prop where
  ready : Ready t'
  read : FormRead t t' b
  stuck : Stuck t → b = false ∧ t'.remaining = t.remaining

section

variable {t u t' : Tokenizer} {b : Bool} {test : Token → Bool}

theorem Takes.nothing (h : Takes test t false t') :
    Ready t' ∧ t'.remaining = t.remaining ∧ ∀ token ∈ t.remaining.head?, test token = false := by
  obtain ⟨hready, ⟨_, hsame, hnone⟩ | ⟨hb, _⟩⟩ := h
  . exact ⟨hready, hsame, hnone⟩
  . contradiction

theorem Takes.something (h : Takes test t true t') :
    Ready t' ∧ ∃ token, test token = true ∧ t.remaining = token :: t'.remaining := by
  obtain ⟨hready, ⟨hb, _⟩ | ⟨_, hsome⟩⟩ := h
  . contradiction
  . exact ⟨hready, hsome⟩

theorem FormOutcome.nothing (h : Takes test t false t') : FormOutcome t false t' := by
  obtain ⟨hready, hsame, _⟩ := h.nothing
  exact ⟨hready, FormRead.failed DerivesCalling.empty (took_nil hsame), fun _ => ⟨rfl, hsame⟩⟩

theorem formOutcome_of_verb {enter : RuleId → Tokenizer → Attempt} {verb : RuleId} {rest : List RuleId}
    (hverb : ∀ b u, enter verb t = (.ok b, u) → Takes test t b u)
    (htest : ∀ token, test token = true → isName token = true)
    (hrest : ∀ token u, test token = true → Took t [token] u → Ready u →
      Arena.matchAll enter rest u = (.ok b, t') → Ready t' ∧ FormRead t t' b)
    (hm : Arena.matchAll enter (verb :: rest) t = (.ok b, t')) : FormOutcome t b t' := by
  rcases Arena.matchAll_cons_ok hm with ⟨rfl, hfirst⟩ | ⟨u, hfirst, hm⟩
  . exact FormOutcome.nothing (hverb false t' hfirst)
  . obtain ⟨hu, token, htoken, hremaining⟩ := (hverb true u hfirst).something
    have hname := htest token htoken
    have htook := took_singleton hremaining (loosened_of_isName hname)
    obtain ⟨hready, hread⟩ := hrest token u htoken htook hu hm
    exact ⟨hready, hread, fun hstuck => absurd hstuck (not_stuck_of_isName hremaining hname)⟩

theorem Takes.took (h : Takes test t true t') (htest : ∀ token, test token = true → token.kind ≠ .word) :
    ∃ token, test token = true ∧ Took t [token] t' := by
  obtain ⟨_, token, htoken, hremaining⟩ := h.something
  exact ⟨token, htoken, took_singleton hremaining (loosened_of_kind (htest token htoken))⟩

theorem Takes.number (h : Takes (fun token => token.kind = .number) t true t') :
    ∃ number, number.kind = .number ∧ Took t [number] t' := by
  obtain ⟨number, hnumber, htook⟩ := h.took (by simp +contextual)
  exact ⟨number, by simpa using hnumber, htook⟩

end

section

variable {arena : Arena} {passes depth : Nat} {t t' : Tokenizer} {b : Bool} {id verb : RuleId}
  {words : List String}

theorem Ready.keywordRule (h : Ready t) {ids : List RuleId} (hid : arena.get? id = some (.choice ids))
    (hids : List.Forall₂ (fun id word => arena.get? id = some (.literal word)) ids words)
    (hwords : words.all isKeyword = true)
    (hm : arena.matchWithin passes depth id t = (.ok b, t')) :
    Takes (fun token => words.any (spells · token)) t b t' := by
  obtain ⟨d, _, hm⟩ := Arena.matchWithin_choice_ok hid hm
  exact h.keywords hids hwords hm

-- A keyword that no number follows is a call.
theorem formRead_of_number {number : RuleId} {rest : List RuleId} {verb : Token} {u : Tokenizer}
    (hnumber : arena.get? number = some (.token .number)) (hname : isName verb = true)
    (htook : Took t [verb] u) (hu : Ready u)
    (hrest : ∀ number v, number.kind = .number → Took t [verb, number] v → Ready v →
      Arena.matchAll (arena.matchWithin passes depth) rest v = (.ok b, t') →
        Ready t' ∧ FormRead t t' b)
    (hm : Arena.matchAll (arena.matchWithin passes depth) (number :: rest) u = (.ok b, t')) :
    Ready t' ∧ FormRead t t' b := by
  rcases Arena.matchAll_cons_ok hm with ⟨rfl, hfirst⟩ | ⟨v, hfirst, hm⟩
  . have hnone := hu.token hnumber (by decide) hfirst
    have htook' := htook.trans (took_nil hnone.nothing.2.1)
    exact ⟨hnone.1, FormRead.failed (derives_call hname) htook'⟩
  . have hfirst := hu.token hnumber (by decide) hfirst
    obtain ⟨number, hkind, htook'⟩ := hfirst.number
    exact hrest number v hkind (htook.trans htook') hfirst.1 hm

theorem Ready.measured (h : Ready t) {ids : List RuleId} {number : RuleId}
    (hid : arena.get? id = some (.sequence [verb, number])) (hverb : arena.get? verb = some (.choice ids))
    (hids : List.Forall₂ (fun id word => arena.get? id = some (.literal word)) ids words)
    (hwords : words.all isKeyword = true) (hnumber : arena.get? number = some (.token .number))
    (hderives : ∀ verb number, words.any (spells · verb) = true → number.kind = .number →
      Derives .statement [verb, number])
    (hm : arena.matchWithin passes depth id t = (.ok b, t')) : FormOutcome t b t' := by
  obtain ⟨d, _, hm⟩ := Arena.matchWithin_sequence_ok hid hm
  apply formOutcome_of_verb (fun b u => h.keywordRule hverb hids hwords)
    (fun token => isName_of_any_spells hwords) _ hm
  intro verb u hverb htook hu hm
  apply formRead_of_number hnumber (isName_of_any_spells hwords hverb) htook hu _ hm
  intro number v hkind htook hv hm
  simp only [Arena.matchAll, Prod.mk.injEq, Except.ok.injEq] at hm
  obtain ⟨rfl, rfl⟩ := hm
  exact ⟨hv, FormRead.matched (hderives verb number hverb hkind) htook⟩

theorem Ready.pen (h : Ready t) {ids : List RuleId} (hid : arena.get? id = some (.choice ids))
    (hids : List.Forall₂ (fun id word => arena.get? id = some (.literal word)) ids pens)
    (hm : arena.matchWithin passes depth id t = (.ok b, t')) : FormOutcome t b t' := by
  have hpens : pens.all isKeyword = true := by decide
  have htakes := h.keywordRule hid hids hpens hm
  cases b with
  | false => exact FormOutcome.nothing htakes
  | true =>
    obtain ⟨hready, verb, hverb, hremaining⟩ := htakes.something
    have hname := isName_of_any_spells hpens hverb
    have htook := took_singleton hremaining (loosened_of_isName hname)
    exact ⟨hready, FormRead.matched (DerivesCalling.pen hverb) htook,
      fun hstuck => absurd hstuck (not_stuck_of_isName hremaining hname)⟩

theorem Ready.go (h : Ready t) {x y : RuleId} (hid : arena.get? id = some (.sequence [verb, x, y]))
    (hverb : arena.get? verb = some (.literal "go")) (hx : arena.get? x = some (.token .number))
    (hy : arena.get? y = some (.token .number))
    (hm : arena.matchWithin passes depth id t = (.ok b, t')) : FormOutcome t b t' := by
  have hgo : isKeyword "go" = true := by decide
  obtain ⟨d, _, hm⟩ := Arena.matchWithin_sequence_ok hid hm
  apply formOutcome_of_verb (fun b u => h.literal hverb (Or.inl hgo)) (fun token => isName_of_spells hgo) _ hm
  intro verb u hverb htook hu hm
  have hname := isName_of_spells hgo hverb
  apply formRead_of_number hx hname htook hu _ hm
  intro x v hx htook hv hm
  have hsecond := hv.token hy (by decide) (Arena.matchAll_singleton_ok hm)
  refine ⟨hsecond.1, ?_⟩
  cases b with
  | false =>
    -- The keyword is the name of a procedure, and the number its argument.
    have hcall : Derives .statement [verb, x] := DerivesCalling.call trivial hname (by simp [hx])
    exact FormRead.failed hcall.single (htook.trans (took_nil hsecond.nothing.2.1))
  | true =>
    obtain ⟨y, hy, htook'⟩ := hsecond.number
    exact FormRead.matched (DerivesCalling.go hverb hx hy) (htook.trans htook')

theorem Ready.print (h : Ready t) {value text number : RuleId}
    (hid : arena.get? id = some (.sequence [verb, value]))
    (hverb : arena.get? verb = some (.literal "print"))
    (hvalue : arena.get? value = some (.choice [text, number]))
    (htext : arena.get? text = some (.token .string)) (hnumber : arena.get? number = some (.token .number))
    (hm : arena.matchWithin passes depth id t = (.ok b, t')) : FormOutcome t b t' := by
  have hprint : isKeyword "print" = true := by decide
  obtain ⟨d, _, hm⟩ := Arena.matchWithin_sequence_ok hid hm
  apply formOutcome_of_verb (fun b u => h.literal hverb (Or.inl hprint))
    (fun token => isName_of_spells hprint) _ hm
  intro verb u hverb htook hu hm
  obtain ⟨d', _, hm⟩ := Arena.matchWithin_choice_ok hvalue (Arena.matchAll_singleton_ok hm)
  have htakes : Takes (fun token => token.kind = .string || token.kind = .number) u b t' := by
    rcases Arena.matchAny_cons_ok hm with ⟨rfl, hfirst⟩ | ⟨v, hfirst, hm⟩
    . apply (hu.token htext (by decide) hfirst).weaken
      simp +contextual
    . have hv := hu.token htext (by decide) hfirst
      exact hv.or (hv.1.token hnumber (by decide) (Arena.matchAny_singleton_ok hm))
  refine ⟨htakes.1, ?_⟩
  cases b with
  | false =>
    have hsame := htakes.nothing.2.1
    exact FormRead.failed (derives_call (isName_of_spells hprint hverb)) (htook.trans (took_nil hsame))
  | true =>
    obtain ⟨value, hvalue, htook'⟩ := htakes.took (by simp +contextual [or_imp])
    exact FormRead.matched (DerivesCalling.print hverb (by simpa using hvalue)) (htook.trans htook')

end

/-! Forms with a block. -/

def ReadsBody (arena : Arena) (passes depth : Nat) (body : RuleId) : Prop :=
  ∀ (t : Tokenizer) (b : Bool) (t' : Tokenizer), Ready t →
    arena.matchWithin passes depth body t = (.ok b, t') → b = true ∧ Ready t' ∧ Ends t t'

structure BlockRule (arena : Arena) (block body : RuleId) where
  {opening inner closing : RuleId}
  {name : String}
  opening_eq : arena.get? opening = some (.literal "\x7b")
  inner_eq : arena.get? inner = some (.reference name (some body))
  closing_eq : arena.get? closing = some (.literal "\x7d")
  block_eq : arena.get? block = some (.sequence [opening, inner, closing])

section

variable {arena : Arena} {passes depth : Nat} {block body : RuleId} {t u t' : Tokenizer} {b : Bool}

theorem took_opening (h : Takes (spells "\x7b") t true u) :
    ∃ opener, spells "\x7b" opener = true ∧ Took t [opener] u := by
  obtain ⟨_, opener, hopener, hremaining⟩ := h.something
  have htext := toList_of_opening (wordsEqual_of_spells hopener)
  exact ⟨opener, hopener, took_singleton hremaining (loosened_of_single htext)⟩

theorem took_closing (h : Takes (spells "\x7d") t true u) :
    ∃ closer, spells "\x7d" closer = true ∧ closer ∈ t.remaining.head? ∧ Took t [closer] u := by
  obtain ⟨_, closer, hcloser, hremaining⟩ := h.something
  have htext := toList_of_closing (wordsEqual_of_spells hcloser)
  refine ⟨closer, hcloser, ?_, took_singleton hremaining (loosened_of_single htext)⟩
  simp [hremaining]

theorem Ready.readBlock (h : Ready t) (rule : BlockRule arena block body)
    (hbody : ∀ d < depth, ReadsBody arena passes d body)
    (hm : arena.matchWithin passes depth block t = (.ok b, t')) : Ready t' ∧ BlockRead t t' b := by
  obtain ⟨d, hd, hm⟩ := Arena.matchWithin_sequence_ok rule.block_eq hm
  rcases Arena.matchAll_cons_ok hm with ⟨rfl, hopening⟩ | ⟨u, hopening, hm⟩
  . have htakes := h.literal rule.opening_eq (Or.inr (Or.inl rfl)) hopening
    exact ⟨htakes.1, BlockRead.none htakes.nothing.2.1⟩
  . have htakes := h.literal rule.opening_eq (Or.inr (Or.inl rfl)) hopening
    obtain ⟨opener, hopener, htook⟩ := took_opening htakes
    have inner {b : Bool} {v : Tokenizer} (hm : arena.matchWithin passes d rule.inner u = (.ok b, v)) :
        b = true ∧ Ready v ∧ Ends u v := by
      obtain ⟨d', hd', hm⟩ := Arena.matchWithin_reference_ok rule.inner_eq hm
      exact hbody d' (by omega) u b v htakes.1 hm
    rcases Arena.matchAll_cons_ok hm with ⟨rfl, hinner⟩ | ⟨v, hinner, hm⟩
    . exact absurd (inner hinner).1 (by decide)
    . obtain ⟨_, hv, hends⟩ := inner hinner
      have hclosing := hv.literal rule.closing_eq (Or.inr (Or.inr rfl)) (Arena.matchAll_singleton_ok hm)
      refine ⟨hclosing.1, ?_⟩
      cases b with
      | false =>
        obtain ⟨_, hsame, hnone⟩ := hclosing.nothing
        cases hends with
        | dead hdead => exact BlockRead.dead (hdead.of_remaining hsame)
        | halted hunclosed htook' hhalted =>
          have htook'' := (htook.trans htook').trans (took_nil hsame)
          rw [List.append_nil] at htook''
          apply BlockRead.unclosed hopener hunclosed htook''
          constructor
          . exact hhalted.stuck.of_remaining hsame
          . rw [hsame]
            exact fun _ => hnone
      | true =>
        obtain ⟨closer, hcloser, hhead, htook''⟩ := took_closing hclosing
        cases hends with
        | dead hdead =>
          obtain ⟨token, hmem, hno⟩ := hdead.next
          rw [Option.mem_unique hhead hmem] at hcloser
          simp [hcloser] at hno
        | @halted n taken hunclosed htook' hhalted =>
          -- A block inside that was not closed came to this token, too, and did not take it.
          obtain rfl : n = 0 := by
            by_cases hn : n = 0
            . exact hn
            . have := hhalted.unclosed (by omega) closer hhead
              simp [hcloser] at this
          have hblock := DerivesCalling.block hopener (unclosed_zero.1 hunclosed) hcloser
          exact BlockRead.matched hblock ((htook.trans htook').trans htook'')

theorem BlockRead.form {head : List Token} (hhead : Derives .body head) (htook : Took t head u)
    (hmatched : ∀ block, Derives .block block → Derives .statement (head ++ block))
    (hunclosed : ∀ n opener taken, spells "\x7b" opener = true → Unclosed n taken →
      Unclosed (n + 1) (head ++ opener :: taken))
    (h : BlockRead u t' b) : FormRead t t' b := by
  cases h with
  | matched hblock htook' => exact FormRead.matched (hmatched _ hblock) (htook.trans htook')
  | none hsame =>
    have htook' := htook.trans (took_nil hsame)
    rw [List.append_nil] at htook'
    exact FormRead.failed hhead htook'
  | unclosed hopener htaken htook' hhalted =>
    exact FormRead.ended (Ends.halted (hunclosed _ _ _ hopener htaken) (htook.trans htook') hhalted)
  | dead hdead => exact FormRead.ended (Ends.dead hdead)

variable {id verb inner : RuleId} {reference : String}

theorem Ready.repetition (h : Ready t) {times : RuleId}
    (hid : arena.get? id = some (.sequence [verb, times, inner]))
    (hverb : arena.get? verb = some (.literal "repeat")) (htimes : arena.get? times = some (.token .number))
    (hinner : arena.get? inner = some (.reference reference (some block)))
    (rule : BlockRule arena block body) (hbody : ∀ d < depth, ReadsBody arena passes d body)
    (hm : arena.matchWithin passes depth id t = (.ok b, t')) : FormOutcome t b t' := by
  have hrepeat : isKeyword "repeat" = true := by decide
  obtain ⟨d, hd, hm⟩ := Arena.matchWithin_sequence_ok hid hm
  apply formOutcome_of_verb (fun b u => h.literal hverb (Or.inl hrepeat))
    (fun token => isName_of_spells hrepeat) _ hm
  intro verb u hverb htook hu hm
  have hname := isName_of_spells hrepeat hverb
  apply formRead_of_number htimes hname htook hu _ hm
  intro times v htimes htook hv hm
  obtain ⟨d', hd', hm⟩ := Arena.matchWithin_reference_ok hinner (Arena.matchAll_singleton_ok hm)
  obtain ⟨hready, hblock⟩ := hv.readBlock rule (fun d _ => hbody d (by omega)) hm
  have hcall : Derives .statement [verb, times] := DerivesCalling.call trivial hname (by simp [htimes])
  refine ⟨hready, hblock.form hcall.single htook ?_ ?_⟩
  . intro block hblock
    exact DerivesCalling.repetition hverb htimes hblock
  . intro n opener taken hopener htaken
    exact Unclosed.repetition hverb htimes hopener htaken

theorem NameRead.failed (h : NameRead t t' false) : Ends t t' := by
  cases h with
  | none hsame hstuck =>
    apply Ends.halted (unclosed_zero.2 DerivesCalling.empty) (took_nil hsame)
    exact ⟨Stuck.of_remaining hstuck hsame, by omega⟩
  | @part token stem c cs rest hremaining hkind htext hstem hc hrest =>
    have hstuck : Stuck t' := by
      have halpha : Text.isAlphabetic c = false := by
        simp only [isIdentifierChar, Bool.or_eq_false_iff] at hc
        exact hc.1.1
      simp [Stuck, hrest, startsName, leftOver, halpha]
    by_cases hbrace : c :: cs = ['\x7d']
    . -- A closing brace is glued to the name.
      rw [hbrace] at htext hrest
      have hname : isName (leftOver token.line stem) = true := by
        simp [isName, leftOver, hstem]
      have htook : Took t [leftOver token.line stem] t' := by
        have hsingle : loosened (leftOver token.line ['\x7d']) = [leftOver token.line ['\x7d']] :=
          loosened_of_single (c := '\x7d') (by simp [leftOver])
        simp only [Took, pieces, hremaining, hrest, List.flatMap_cons, hsingle,
          loosened_of_stem hkind hstem htext]
        rfl
      exact Ends.halted (unclosed_zero.2 (derives_call hname)) htook ⟨hstuck, by omega⟩
    . -- What is left of the word is a token that no leaf of the language accepts.
      apply Ends.dead
      refine ⟨hstuck, leftOver token.line (c :: cs), by simp [hrest], ?_⟩
      rw [Bool.eq_false_iff]
      intro hspells
      have := toList_of_closing (wordsEqual_of_spells hspells)
      simp only [leftOver, String.toList_ofList] at this
      exact hbrace this

theorem Ready.learn (h : Ready t) {named name : RuleId} {reference' : String}
    (hid : arena.get? id = some (.sequence [verb, named, inner]))
    (hverb : arena.get? verb = some (.literal "learn"))
    (hnamed : arena.get? named = some (.reference reference' (some name)))
    (hinner : arena.get? inner = some (.reference reference (some block)))
    (nameRule : NameRule arena name) (rule : BlockRule arena block body)
    (hbody : ∀ d < depth, ReadsBody arena passes d body)
    (hm : arena.matchWithin passes depth id t = (.ok b, t')) : FormOutcome t b t' := by
  have hlearn : isKeyword "learn" = true := by decide
  obtain ⟨d, hd, hm⟩ := Arena.matchWithin_sequence_ok hid hm
  apply formOutcome_of_verb (fun b u => h.literal hverb (Or.inl hlearn))
    (fun token => isName_of_spells hlearn) _ hm
  intro verb u hverb htook hu hm
  have hcall := derives_call (isName_of_spells hlearn hverb)
  rcases Arena.matchAll_cons_ok hm with ⟨rfl, hfirst⟩ | ⟨v, hfirst, hm⟩
  . obtain ⟨d', hd', hfirst⟩ := Arena.matchWithin_reference_ok hnamed hfirst
    obtain ⟨hready, hname⟩ := hu.readName nameRule hfirst
    exact ⟨hready, FormRead.ended (hname.failed.prepend hcall htook)⟩
  . obtain ⟨d', hd', hfirst⟩ := Arena.matchWithin_reference_ok hnamed hfirst
    obtain ⟨hv, hname⟩ := hu.readName nameRule hfirst
    obtain ⟨d'', hd'', hm⟩ := Arena.matchWithin_reference_ok hinner (Arena.matchAll_singleton_ok hm)
    obtain ⟨hready, hblock⟩ := hv.readBlock rule (fun d _ => hbody d (by omega)) hm
    cases hname with
    | name hname hremaining =>
      have htook' := took_singleton hremaining (loosened_of_isName hname)
      refine ⟨hready, hblock.form (hcall.append (derives_call hname)) (htook.trans htook') ?_ ?_⟩
      . intro block hblock
        exact DerivesCalling.learn hverb hname hblock
      . intro n opener taken hopener htaken
        exact Unclosed.learn hverb hname hopener htaken

theorem NameRead.stuck (h : NameRead t t' b) (hstuck : Stuck t) :
    b = false ∧ t'.remaining = t.remaining := by
  cases h with
  | name hname hremaining => exact absurd hstuck (not_stuck_of_isName hremaining hname)
  | none hsame _ => exact ⟨rfl, hsame⟩
  | @part token stem c cs rest hremaining hkind htext hstem hc hrest =>
    have hstarts := hstuck token (by simp [hremaining])
    cases stem with
    | nil => simp [isIdentifier] at hstem
    | cons c' stem =>
      simp only [isIdentifier, Bool.and_eq_true] at hstem
      simp [startsName, hkind, htext, hstem.1] at hstarts

theorem mark_ne_of_remaining (ht : t.Consistent) (hu : u.Consistent) (hf : t.Forward u)
    (hne : u.remaining ≠ t.remaining) : u.mark ≠ t.mark := by
  intro hmark
  have hstill := hf.still ((hf.mark_eq_iff ht).1 hmark).1
  exact hne (Tokenizer.remaining_congr ⟨hu, ht, hstill.config, hstill.peek⟩)

theorem mark_ne_of_took (ht : t.Consistent) (hu : u.Consistent) (hf : t.Forward u) {taken : List Token}
    (htook : Took t taken u) (hne : taken ≠ []) : u.mark ≠ t.mark := by
  apply mark_ne_of_remaining ht hu hf
  intro hsame
  simp only [Took, pieces, hsame, List.self_eq_append_left] at htook
  exact hne htook

theorem Ready.arguments (h : Ready t) {number : RuleId} (hid : arena.get? id = some (.repetition 0 none [number]))
    (hnumber : arena.get? number = some (.token .number))
    (hm : arena.matchWithin passes depth id t = (.ok b, t')) :
    b = true ∧ Ready t' ∧
      ∃ arguments, (∀ argument ∈ arguments, argument.kind = .number) ∧ Took t arguments t' := by
  obtain ⟨d, _, hm⟩ := Arena.matchWithin_repetition_ok hid hm
  refine Arena.matchRepetition_star_ok (I := Ready) (P := fun t t' => Ready t' ∧
    ∃ arguments, (∀ argument ∈ arguments, argument.kind = .number) ∧ Took t arguments t') ?_ ?_ h hm
  . intro t t' ht hbody
    have htakes := ht.token hnumber (by decide) (Arena.matchAll_singleton_ok hbody)
    exact ⟨htakes.1, [], by simp, took_nil htakes.nothing.2.1⟩
  . intro t u ht hbody
    have hbody := Arena.matchAll_singleton_ok hbody
    have htakes := ht.token hnumber (by decide) hbody
    have hleads := arena.matchWithin_leads passes d number t ht.consistent
    rw [hbody] at hleads
    obtain ⟨argument, hargument, htook⟩ := htakes.number
    refine ⟨mark_ne_of_took ht.consistent hleads.consistent (hleads.forward true rfl) htook (by simp),
      htakes.1, ?_⟩
    rintro t' ⟨ht', arguments, harguments, htook'⟩
    refine ⟨ht', argument :: arguments, ?_, htook.trans htook'⟩
    simpa [hargument] using harguments

-- A call takes what no other form has taken, so that it comes last.
theorem Ready.call (h : Ready t) {named name arguments number : RuleId}
    (hid : arena.get? id = some (.sequence [named, arguments]))
    (hnamed : arena.get? named = some (.reference reference (some name)))
    (harguments : arena.get? arguments = some (.repetition 0 none [number]))
    (hnumber : arena.get? number = some (.token .number)) (rule : NameRule arena name)
    (hm : arena.matchWithin passes depth id t = (.ok b, t')) :
    FormOutcome t b t' ∧ (b = false → Ends t t') := by
  obtain ⟨d, _, hm⟩ := Arena.matchWithin_sequence_ok hid hm
  rcases Arena.matchAll_cons_ok hm with ⟨rfl, hfirst⟩ | ⟨u, hfirst, hm⟩
  . obtain ⟨d', _, hfirst⟩ := Arena.matchWithin_reference_ok hnamed hfirst
    obtain ⟨hready, hname⟩ := h.readName rule hfirst
    exact ⟨⟨hready, FormRead.ended hname.failed, hname.stuck⟩, fun _ => hname.failed⟩
  . obtain ⟨d', _, hfirst⟩ := Arena.matchWithin_reference_ok hnamed hfirst
    obtain ⟨hu, hname⟩ := h.readName rule hfirst
    obtain ⟨rfl, hready, arguments, harguments, htook'⟩ :=
      hu.arguments harguments hnumber (Arena.matchAll_singleton_ok hm)
    cases hname with
    | name hname hremaining =>
      have htook := took_singleton hremaining (loosened_of_isName hname)
      refine ⟨⟨hready, FormRead.matched (DerivesCalling.call trivial hname harguments) (htook.trans htook'), ?_⟩, by simp⟩
      intro hstuck
      exact absurd hstuck (not_stuck_of_isName hremaining hname)

end

end TokenGrammar.Grammar.Turtle
