import TokenGrammar.Proofs.Match.Fault
import TokenGrammar.Proofs.Turtle.Gives

/-!
Every turtle script is accepted, if none of its calls has a keyword for a name (`accepts_script`). What is
derived is taken token by token: a keyword belongs to one form only, so that all forms before it decline;
a call goes on until there are no numbers left; and a body goes on until a closing brace or the end.
-/

namespace TokenGrammar.Grammar.Turtle

def verbs : List String :=
  moves ++ turns ++ pens ++ ["go", "print", "repeat", "learn"]

def isVerb (token : Token) : Bool :=
  verbs.any (spells · token)

/-! The forms of a statement. -/

def forms : List (RuleId × List String) :=
  [(Place.move, moves), (Place.turn, turns), (Place.pen, pens), (Place.go, ["go"]), (Place.print, ["print"]),
    (Place.repetition, ["repeat"]), (Place.learn, ["learn"])]

theorem leaf_moves : Leaf Place.moveVerb fun token => moves.any (spells · token) := by
  apply leaf_keywords rfl _ (by decide)
  exact .cons rfl (.cons rfl (.cons rfl (.cons rfl .nil)))

theorem leaf_turns : Leaf Place.turnVerb fun token => turns.any (spells · token) := by
  apply leaf_keywords rfl _ (by decide)
  exact .cons rfl (.cons rfl (.cons rfl (.cons rfl (.cons rfl (.cons rfl .nil)))))

theorem leaf_pens : Leaf Place.penVerb fun token => pens.any (spells · token) := by
  apply leaf_keywords rfl _ (by decide)
  exact .cons rfl (.cons rfl (.cons rfl (.cons rfl (.cons rfl (.cons rfl (.cons rfl (.cons rfl .nil)))))))

theorem leaf_go : Leaf Place.goVerb fun token => ["go"].any (spells · token) :=
  leaf_word rfl (by decide)

theorem leaf_print : Leaf Place.printVerb fun token => ["print"].any (spells · token) :=
  leaf_word rfl (by decide)

theorem leaf_repeat : Leaf Place.repeatVerb fun token => ["repeat"].any (spells · token) :=
  leaf_word rfl (by decide)

theorem leaf_learn : Leaf Place.learnVerb fun token => ["learn"].any (spells · token) :=
  leaf_word rfl (by decide)

theorem form_declines {form : RuleId × List String} (hform : form ∈ forms) {tokens : List Token}
    (h : ∀ token ∈ tokens.head?, form.2.any (spells · token) = false) :
    Gives form.1 false tokens tokens := by
  simp only [forms, List.mem_cons, List.not_mem_nil, or_false] at hform
  rcases hform with rfl | rfl | rfl | rfl | rfl | rfl | rfl
  . exact .reference rfl (.sequence rfl (.stop (leaf_moves.decline h)))
  . exact .reference rfl (.sequence rfl (.stop (leaf_turns.decline h)))
  . exact .reference rfl (leaf_pens.decline h)
  . exact .reference rfl (.sequence rfl (.stop (leaf_go.decline h)))
  . exact .reference rfl (.sequence rfl (.stop (leaf_print.decline h)))
  . exact .reference rfl (.sequence rfl (.stop (leaf_repeat.decline h)))
  . exact .reference rfl (.sequence rfl (.stop (leaf_learn.decline h)))

theorem forms_apart :
    forms.Pairwise fun form form' => ∀ word ∈ form.2, ∀ word' ∈ form'.2,
      Text.lowercaseAll word.toList ≠ Text.lowercaseAll word'.toList := by
  decide +kernel

section

variable {token verb : Token} {tokens rest : List Token}

theorem lowercaseAll_of_spells {word : String} (h : spells word token = true) :
    Text.lowercaseAll token.text.toList = Text.lowercaseAll word.toList := by
  simpa [wordsEqual] using wordsEqual_of_spells h

theorem any_spells_apart {words words' : List String}
    (hapart : ∀ word ∈ words, ∀ word' ∈ words',
      Text.lowercaseAll word.toList ≠ Text.lowercaseAll word'.toList)
    (h : words'.any (spells · token) = true) : words.any (spells · token) = false := by
  rw [List.any_eq_true] at h
  obtain ⟨word', hmem', hspells'⟩ := h
  rw [List.any_eq_false]
  intro word hmem hspells
  apply hapart word hmem word' hmem'
  rw [← lowercaseAll_of_spells hspells, lowercaseAll_of_spells hspells']

theorem statement_eq : arena.get? Place.statement = some (.choice (forms.map Prod.fst ++ [Place.call])) :=
  rfl

theorem gives_statement (id : RuleId) (words : List String) (hform : (id, words) ∈ forms)
    (hverb : words.any (spells · verb) = true) (h : Gives id true (verb :: tokens) rest) :
    Gives Place.statement true (verb :: tokens) rest := by
  obtain ⟨earlier, later, hforms⟩ := List.append_of_mem hform
  have hid := statement_eq
  have hapart := forms_apart
  rw [hforms, List.pairwise_append] at hapart
  rw [hforms, List.map_append, List.map_cons, List.append_assoc] at hid
  apply Gives.choice hid
  apply GivesAny.skip _ (GivesAny.first h)
  intro id' hid'
  obtain ⟨form, hform', rfl⟩ := List.mem_map.1 hid'
  apply form_declines (by simp [hforms, hform'])
  simpa using any_spells_apart (hapart.2.2 form hform' (id, words) (by simp)) hverb

theorem gives_statement_of_call {verdict : Bool}
    (hforms : ∀ form ∈ forms, ∀ token ∈ tokens.head?, form.2.any (spells · token) = false)
    (h : Gives Place.call verdict tokens rest) : Gives Place.statement verdict tokens rest := by
  apply Gives.choice statement_eq
  apply GivesAny.skip _ (GivesAny.singleton h)
  intro id hid
  obtain ⟨form, hform, rfl⟩ := List.mem_map.1 hid
  exact form_declines hform (hforms form hform)

theorem gives_form (id : RuleId) {target first : RuleId} {name : String} {words : List String}
    {rules : List RuleId} (hform : (id, words) ∈ forms)
    (hid : arena.get? id = some (.reference name (some target)))
    (htarget : arena.get? target = some (.sequence (first :: rules)))
    (hfirst : Leaf first fun token => words.any (spells · token))
    (hverb : words.any (spells · verb) = true) (h : GivesAll rules true tokens rest) :
    Gives Place.statement true (verb :: tokens) rest := by
  apply gives_statement id words hform hverb
  apply Gives.reference hid
  apply Gives.sequence htarget
  exact .cons (hfirst.take hverb) h

theorem any_singleton_spells {word : String} (h : spells word verb = true) :
    [word].any (spells · verb) = true := by
  simpa using h

theorem gives_move (hverb : moves.any (spells · verb) = true) (hdistance : token.kind = .number) :
    Gives Place.statement true (verb :: token :: rest) rest := by
  apply gives_form Place.move (by simp [forms]) rfl rfl leaf_moves hverb
  exact .singleton (leaf_number rfl hdistance)

theorem gives_turn (hverb : turns.any (spells · verb) = true) (hangle : token.kind = .number) :
    Gives Place.statement true (verb :: token :: rest) rest := by
  apply gives_form Place.turn (by simp [forms]) rfl rfl leaf_turns hverb
  exact .singleton (leaf_number rfl hangle)

theorem gives_pen (hverb : pens.any (spells · verb) = true) : Gives Place.statement true (verb :: rest) rest := by
  apply gives_statement Place.pen pens (by simp [forms]) hverb
  exact .reference rfl (leaf_pens.take hverb)

theorem gives_go {x y : Token} (hverb : spells "go" verb = true) (hx : x.kind = .number)
    (hy : y.kind = .number) : Gives Place.statement true (verb :: x :: y :: rest) rest := by
  apply gives_form Place.go (by simp [forms]) rfl rfl leaf_go (any_singleton_spells hverb)
  exact .cons (leaf_number rfl hx) (.singleton (leaf_number rfl hy))

theorem gives_print (hverb : spells "print" verb = true)
    (hvalue : token.kind = .string ∨ token.kind = .number) :
    Gives Place.statement true (verb :: token :: rest) rest := by
  have htext : Leaf Place.printText fun token => token.kind = .string := leaf_token rfl (by decide)
  apply gives_form Place.print (by simp [forms]) rfl rfl leaf_print (any_singleton_spells hverb)
  apply GivesAll.singleton
  apply Gives.choice rfl
  rcases hvalue with hstring | hnumber
  . exact .first (htext.take (by simpa using hstring))
  . apply GivesAny.next (htext.decline (by simp [hnumber]))
    exact .singleton (leaf_number rfl hnumber)

theorem gives_repetition {block : List Token} (hverb : spells "repeat" verb = true)
    (htimes : token.kind = .number) (hblock : Gives Place.block true block rest) :
    Gives Place.statement true (verb :: token :: block) rest := by
  apply gives_form Place.repetition (by simp [forms]) rfl rfl leaf_repeat (any_singleton_spells hverb)
  apply GivesAll.cons (leaf_number rfl htimes)
  exact .singleton (.reference rfl hblock)

theorem gives_learn {block : List Token} (hverb : spells "learn" verb = true) (hname : isName token = true)
    (hblock : Gives Place.block true block rest) : Gives Place.statement true (verb :: token :: block) rest := by
  apply gives_form Place.learn (by simp [forms]) rfl rfl leaf_learn (any_singleton_spells hverb)
  apply GivesAll.cons (.reference rfl (gives_name hname))
  exact .singleton (.reference rfl hblock)

theorem givesLoop_arguments {arguments : List Token}
    (harguments : ∀ argument ∈ arguments, argument.kind = .number)
    (hrest : ∀ token ∈ rest.head?, token.kind ≠ .number) :
    GivesLoop Place.arguments [Place.argument] (arguments ++ rest) rest := by
  induction arguments with
  | nil =>
    have hnumber : Leaf Place.argument fun token => token.kind = .number := leaf_token rfl (by decide)
    exact .stop (.singleton (hnumber.decline (by simpa using hrest)))
  | cons argument arguments ih =>
    simp only [List.mem_cons, forall_eq_or_imp] at harguments
    apply GivesLoop.step (.singleton (leaf_number rfl harguments.1)) _ (ih harguments.2)
    simp

theorem any_spells_of_not_isVerb (h : isVerb token = false) {form : RuleId × List String}
    (hform : form ∈ forms) : form.2.any (spells · token) = false := by
  have hverbs : forms.flatMap Prod.snd = verbs := rfl
  unfold isVerb at h
  rw [← hverbs, List.any_flatMap, List.any_eq_false] at h
  simpa using h form hform

theorem gives_call {arguments : List Token} (hverb : isVerb token = false) (hname : isName token = true)
    (harguments : ∀ argument ∈ arguments, argument.kind = .number)
    (hrest : ∀ token ∈ rest.head?, token.kind ≠ .number) :
    Gives Place.statement true (token :: arguments ++ rest) rest := by
  apply gives_statement_of_call
  . intro form hform
    simpa using any_spells_of_not_isVerb hverb hform
  . apply Gives.reference rfl
    apply Gives.sequence rfl
    apply GivesAll.cons (.reference rfl (gives_name hname))
    exact .singleton (.repetition rfl (givesLoop_arguments harguments hrest))

theorem gives_statement_none (h : ∀ token ∈ tokens.head?, startsName token = false) :
    Gives Place.statement false tokens tokens := by
  apply gives_statement_of_call
  . intro form hform token htoken
    rw [Bool.eq_false_iff]
    intro hspells
    have hwords : forms.all (·.2.all isKeyword) = true := by decide
    have hname := isName_of_any_spells (List.all_eq_true.1 hwords form hform) hspells
    have := h token htoken
    simp [startsName_of_isName hname] at this
  . apply Gives.reference rfl
    apply Gives.sequence rfl
    exact .stop (.reference rfl (gives_name_none h))

end

/-! Whatever is derived is taken. -/

-- A place at which a body comes to its end: a word that begins no statement, or the end.
def Closes (rest : List Token) : Prop :=
  ∀ token ∈ rest.head?, token.kind = .word ∧ startsName token = false

def Taken : Symbol → List Token → Prop
  | .program, tokens => Gives Place.program true tokens.dropLast []
  | .body, tokens => ∀ rest, Closes rest → GivesLoop Place.body [Place.line] (tokens ++ rest) rest
  | .block, tokens => ∀ rest, Gives Place.block true (tokens ++ rest) rest
  | .statement, tokens =>
    ∀ rest : List Token, (∀ token ∈ rest.head?, token.kind ≠ .number) → Gives Place.statement true (tokens ++ rest) rest

section

variable {callable : Token → Prop} {token opener closer : Token} {statement tokens rest : List Token}

theorem closes_of_closing (h : spells "\x7d" closer = true) : Closes (closer :: rest) := by
  have htext := toList_of_closing (wordsEqual_of_spells h)
  have hkind : closer.kind = .word := by
    simp only [spells, Bool.and_eq_true, decide_eq_true_eq] at h
    exact h.1
  have halpha : Text.isAlphabetic '\x7d' = false := by decide
  simp [Closes, hkind, startsName, htext, halpha]

theorem Closes.line (h : Closes rest) : Gives Place.line false rest rest := by
  have hnewline : Leaf Place.newline fun token => token.kind = .newline := leaf_token rfl (by decide)
  apply Gives.choice rfl
  apply GivesAny.next
  . apply hnewline.decline
    intro token htoken
    simp [(h token htoken).1]
  . exact .singleton (.reference rfl (gives_statement_none fun token htoken => (h token htoken).2))

theorem gives_newline (h : token.kind = .newline) : Gives Place.line true (token :: rest) rest := by
  have hnewline : Leaf Place.newline fun token => token.kind = .newline := leaf_token rfl (by decide)
  exact .choice rfl (.first (hnewline.take (by simpa using h)))

theorem gives_line (hkind : token.kind = .word) (h : Gives Place.statement true (token :: tokens) rest) :
    Gives Place.line true (token :: tokens) rest := by
  have hnewline : Leaf Place.newline fun token => token.kind = .newline := leaf_token rfl (by decide)
  apply Gives.choice rfl
  apply GivesAny.next (hnewline.decline (by simp [hkind]))
  exact .singleton (.reference rfl h)

theorem gives_block (hopener : spells "\x7b" opener = true) (hcloser : spells "\x7d" closer = true)
    (hbody : Taken .body tokens) : Gives Place.block true (opener :: tokens ++ [closer] ++ rest) rest := by
  have hopening : Leaf Place.opening (spells "\x7b") := fun _ _ _ _ _ ht => ht.literal rfl (.inr (.inl rfl))
  have hclosing : Leaf Place.closing (spells "\x7d") := fun _ _ _ _ _ ht => ht.literal rfl (.inr (.inr rfl))
  apply Gives.sequence rfl
  rw [List.append_assoc]
  apply GivesAll.cons (hopening.take hopener)
  apply GivesAll.cons
  . apply Gives.reference rfl
    apply Gives.repetition rfl
    exact hbody _ (closes_of_closing hcloser)
  . exact .singleton (hclosing.take hcloser)

theorem gives_program (hbody : Taken .body tokens) : Gives Place.program true tokens [] := by
  have hbody := hbody [] (by simp [Closes])
  rw [List.append_nil] at hbody
  apply Gives.sequence rfl
  apply GivesAll.cons
  . exact .reference rfl (.repetition rfl hbody)
  . exact .singleton gives_end

theorem kind_of_isName (h : isName token = true) : token.kind = .word := by
  simp only [isName, Bool.and_eq_true, decide_eq_true_eq] at h
  exact h.1

theorem DerivesCalling.statement_head (h : DerivesCalling callable .statement tokens) :
    ∃ verb others, tokens = verb :: others ∧ verb.kind = .word := by
  cases h with
  | move hverb _ => exact ⟨_, _, rfl, kind_of_isName (isName_of_any_spells (by decide) hverb)⟩
  | turn hverb _ => exact ⟨_, _, rfl, kind_of_isName (isName_of_any_spells (by decide) hverb)⟩
  | pen hverb => exact ⟨_, _, rfl, kind_of_isName (isName_of_any_spells (by decide) hverb)⟩
  | go hverb _ _ => exact ⟨_, _, rfl, kind_of_isName (isName_of_spells (by decide) hverb)⟩
  | print hverb _ => exact ⟨_, _, rfl, kind_of_isName (isName_of_spells (by decide) hverb)⟩
  | repetition hverb _ _ => exact ⟨_, _, rfl, kind_of_isName (isName_of_spells (by decide) hverb)⟩
  | learn hverb _ _ => exact ⟨_, _, rfl, kind_of_isName (isName_of_spells (by decide) hverb)⟩
  | call _ hname _ => exact ⟨_, _, rfl, kind_of_isName hname⟩

-- What follows a statement is no number, so that a call has taken all its arguments.
theorem DerivesCalling.follows (h : DerivesCalling callable .body tokens) (hrest : Closes rest) :
    ∀ token ∈ (tokens ++ rest).head?, token.kind ≠ .number := by
  cases h with
  | empty =>
    intro token htoken
    simp [(hrest token htoken).1]
  | newline hnewline _ => simp [hnewline]
  | statement hstatement _ =>
    obtain ⟨verb, others, rfl, hkind⟩ := hstatement.statement_head
    simp [hkind]

end

theorem DerivesCalling.taken {symbol : Symbol} {tokens : List Token}
    (h : DerivesCalling (fun name => isVerb name = false) symbol tokens) : Taken symbol tokens := by
  -- A body is about its loop, which a derivation enters once more for each of its lines.
  induction h with
  | program _ _ ih =>
    rw [Taken, List.dropLast_concat]
    exact gives_program ih
  | empty =>
    intro rest hrest
    exact .stop (.singleton hrest.line)
  | newline hnewline _ ih =>
    intro rest hrest
    apply GivesLoop.step (.singleton (gives_newline hnewline)) _ (ih rest hrest)
    simp
  | statement hstatement hbody ih ih' =>
    intro rest hrest
    obtain ⟨verb, others, rfl, hkind⟩ := hstatement.statement_head
    rw [List.append_assoc]
    apply GivesLoop.step _ _ (ih' rest hrest)
    . exact .singleton (gives_line hkind (ih _ (hbody.follows hrest)))
    . intro heq
      have := congrArg List.length heq
      simp only [List.length_cons, List.length_append] at this
      omega
  | block hopener _ hcloser ih =>
    intro rest
    exact gives_block hopener hcloser ih
  | move hverb hdistance =>
    intro rest _
    exact gives_move hverb hdistance
  | turn hverb hangle =>
    intro rest _
    exact gives_turn hverb hangle
  | pen hverb =>
    intro rest _
    exact gives_pen hverb
  | go hverb hx hy =>
    intro rest _
    exact gives_go hverb hx hy
  | print hverb hvalue =>
    intro rest _
    exact gives_print hverb hvalue
  | repetition hverb htimes _ ih =>
    intro rest _
    exact gives_repetition hverb htimes (ih rest)
  | learn hverb hname _ ih =>
    intro rest _
    exact gives_learn hverb hname (ih rest)
  | call hverb hname harguments =>
    intro rest hrest
    exact gives_call hverb hname harguments hrest

theorem accepts_script {grammar : Grammar} (hg : turtle = .ok grammar) {text : String}
    (h : DerivesCalling (fun name => isVerb name = false) .program
      (grammar.tokenizer (.ofText text)).readAll.tokens) :
    grammar.accepts text = .ok true := by
  obtain ⟨b, hb⟩ := Grammar.exists_build_of_ofSteps hg
  obtain ⟨verdict, hverdict⟩ := Grammar.exists_verdict hb text
  obtain ⟨ending, _, htokens⟩ := (Tokenizer.ofText_clean config text).readAll_tokens
  rw [tokenizer_eq hg, htokens] at h
  have htaken := h.taken
  rw [Taken, List.dropLast_concat] at htaken
  rw [accepts_eq hg] at hverdict ⊢
  cases hm : arena.matchRule Place.program (.ofSource config (.ofText text)) with
  | mk result t' =>
    rw [hm] at hverdict
    obtain rfl : result = .ok verdict := hverdict
    obtain ⟨rfl, _⟩ := htaken _ _ _ _ _ (ofText_ready text) rfl hm
    rfl

def square : String :=
  "learn Square \x7b\n repeat 4 \x7b FW 9 \x7d \x7d\nsquare 2"

def squareMove : List Token :=
  [⟨.word, "FW", 2, .zero⟩, ⟨.number, "9", 2, ⟨0x4022000000000000⟩⟩]

def squareLoop : List Token :=
  ⟨.word, "repeat", 2, .zero⟩ :: ⟨.number, "4", 2, ⟨0x4010000000000000⟩⟩ ::
    (⟨.word, "\x7b", 2, .zero⟩ :: (squareMove ++ []) ++ [⟨.word, "\x7d", 2, .zero⟩])

def squareCall : List Token :=
  [⟨.word, "square", 3, .zero⟩, ⟨.number, "2", 3, ⟨0x4000000000000000⟩⟩]

theorem square_tokens :
    (Tokenizer.ofSource config (.ofText square)).readAll.tokens =
      (⟨.word, "learn", 1, .zero⟩ :: ⟨.word, "Square", 1, .zero⟩ :: (⟨.word, "\x7b", 1, .zero⟩ ::
        (⟨.newline, "\n", 1, .zero⟩ :: (squareLoop ++ [])) ++ [⟨.word, "\x7d", 2, .zero⟩])) ++
      (⟨.newline, "\n", 2, .zero⟩ :: (squareCall ++ [])) ++ [.endOfStream 3] := by
  decide +kernel

theorem accepts_script_square :
    ∃ grammar, turtle = .ok grammar ∧
      DerivesCalling (fun name => isVerb name = false) .program
        (grammar.tokenizer (.ofText square)).readAll.tokens ∧
      grammar.accepts square = .ok true := by
  obtain ⟨grammar, hg, _⟩ := exists_turtle
  have hderives : DerivesCalling (fun name => isVerb name = false) .program
      (grammar.tokenizer (.ofText square)).readAll.tokens := by
    rw [tokenizer_eq hg, square_tokens]
    have hmove : DerivesCalling (fun name => isVerb name = false) .statement squareMove :=
      .move (by decide) rfl
    have hloop : DerivesCalling (fun name => isVerb name = false) .statement squareLoop :=
      .repetition (by decide) rfl (.block (by decide) (.statement hmove .empty) (by decide))
    have hcall : DerivesCalling (fun name => isVerb name = false) .statement squareCall :=
      .call (by decide) (by decide) (by decide)
    refine .program (.statement (.learn (by decide) (by decide) (.block (by decide) ?_ (by decide))) ?_) rfl
    . exact .newline rfl (.statement hloop .empty)
    . exact .newline rfl (.statement hcall .empty)
  exact ⟨grammar, hg, hderives, accepts_script hg hderives⟩

end TokenGrammar.Grammar.Turtle
