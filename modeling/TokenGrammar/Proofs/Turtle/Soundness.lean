import TokenGrammar.Proofs.Tokenizer.Delivery
import TokenGrammar.Proofs.Turtle.Statement

/-!
Whatever is accepted as a turtle script is one, once its blocks are closed (`accepts_mended`).
-/

namespace TokenGrammar.Grammar.Turtle

theorem DerivesCalling.ne_nil {callable : Token → Prop} {tokens : List Token}
    (h : DerivesCalling callable .statement tokens) : tokens ≠ [] := by
  cases h <;> simp

inductive LineRead (t t' : Tokenizer) : Bool → Prop where
  | matched {taken : List Token} : taken ≠ [] → Derives .body taken → Took t taken t' → LineRead t t' true
  | ended : Ends t t' → LineRead t t' false

section

variable {t t' : Tokenizer} {b : Bool}

theorem Ready.forms (h : Ready t) {enter : RuleId → Tokenizer → Attempt} (ids : List RuleId)
    {last : RuleId}
    (hids : ∀ id ∈ ids, ∀ t b t', Ready t → enter id t = (.ok b, t') → FormOutcome t b t')
    (hlast : ∀ t b t', Ready t → enter last t = (.ok b, t') →
      FormOutcome t b t' ∧ (b = false → Ends t t'))
    (hm : Arena.matchAny enter (ids ++ [last]) t = (.ok b, t')) :
    Ready t' ∧ LineRead t t' b ∧ (Stuck t → b = false ∧ t'.remaining = t.remaining) := by
  induction ids generalizing t with
  | nil =>
    obtain ⟨⟨hready, hread, hstuck⟩, hends⟩ := hlast t b t' h (Arena.matchAny_singleton_ok hm)
    refine ⟨hready, ?_, hstuck⟩
    cases hread with
    | matched hstatement htook => exact LineRead.matched hstatement.ne_nil hstatement.single htook
    | failed _ _ => exact LineRead.ended (hends rfl)
    | ended _ => exact LineRead.ended (hends rfl)
  | cons id ids ih =>
    simp only [List.mem_cons, forall_eq_or_imp] at hids
    rcases Arena.matchAny_cons_ok hm with ⟨rfl, hfirst⟩ | ⟨u, hfirst, hm⟩
    . obtain ⟨hready, hread, hstuck⟩ := hids.1 t true t' h hfirst
      refine ⟨hready, ?_, hstuck⟩
      cases hread with
      | matched hstatement htook => exact LineRead.matched hstatement.ne_nil hstatement.single htook
    . obtain ⟨hu, hread, hstuck⟩ := hids.1 t false u h hfirst
      obtain ⟨hready, hline, hrest⟩ := ih hu hids.2 hm
      refine ⟨hready, ?_, ?_⟩
      . cases hread with
        | failed hbody htook =>
          cases hline with
          | matched hne hbody' htook' =>
            exact LineRead.matched (by simp [hne]) (hbody.append hbody') (htook.trans htook')
          | ended hends => exact LineRead.ended (hends.prepend hbody htook)
        | ended hends =>
          -- The forms that are left take nothing where the statements have come to an end.
          obtain ⟨rfl, hsame⟩ := hrest hends.stuck
          exact LineRead.ended (hends.of_remaining hsame)
      . intro hstart
        obtain ⟨_, hsame⟩ := hstuck hstart
        obtain ⟨hb, hsame'⟩ := hrest (hstart.of_remaining hsame)
        exact ⟨hb, hsame'.trans hsame⟩

end

/-! The rules at their places. -/

namespace Place

abbrev name : RuleId := 7
abbrev moveVerb : RuleId := 12
abbrev turnVerb : RuleId := 21
abbrev penVerb : RuleId := 32
abbrev goVerb : RuleId := 33
abbrev printVerb : RuleId := 37
abbrev printText : RuleId := 38
abbrev repeatVerb : RuleId := 42
abbrev learnVerb : RuleId := 46
abbrev argument : RuleId := 51
abbrev arguments : RuleId := 52
abbrev move : RuleId := 54
abbrev turn : RuleId := 55
abbrev pen : RuleId := 56
abbrev go : RuleId := 57
abbrev print : RuleId := 58
abbrev repetition : RuleId := 59
abbrev learn : RuleId := 60
abbrev call : RuleId := 61
abbrev statement : RuleId := 62
abbrev newline : RuleId := 63
abbrev line : RuleId := 65
abbrev body : RuleId := 66
abbrev opening : RuleId := 67
abbrev closing : RuleId := 69
abbrev block : RuleId := 70
abbrev ending : RuleId := 72
abbrev program : RuleId := 73

abbrev forms : List RuleId :=
  [move, turn, pen, go, print, repetition, learn]

end Place

def arena : Arena :=
  ⟨#[
    -- A name.
    .charClass .letter, .charClass .alphanumeric, .charClass (.exact '_'), .choice [1, 2],
    .repetition 0 none [3], .sequence [0, 4], .charClass .endOfWord, .sequence [5, 6],
    -- The forms of a statement, the first of them at 14 and a call at 53.
    .literal "forward", .literal "fw", .literal "backward", .literal "bw", .choice [8, 9, 10, 11],
    .token .number, .sequence [12, 13],
    .literal "turnleft", .literal "tl", .literal "turnright", .literal "tr", .literal "direction",
    .literal "dir", .choice [15, 16, 17, 18, 19, 20], .token .number, .sequence [21, 22],
    .literal "penup", .literal "pu", .literal "pendown", .literal "pd", .literal "clear", .literal "cls",
    .literal "reset", .literal "center", .choice [24, 25, 26, 27, 28, 29, 30, 31],
    .literal "go", .token .number, .token .number, .sequence [33, 34, 35],
    .literal "print", .token .string, .token .number, .choice [38, 39], .sequence [37, 40],
    .literal "repeat", .token .number, .reference "block" (some 70), .sequence [42, 43, 44],
    .literal "learn", .reference "name" (some 7), .reference "block" (some 70), .sequence [46, 47, 48],
    .reference "name" (some 7), .token .number, .repetition 0 none [51], .sequence [50, 52],
    -- A statement, and a body.
    .reference "move" (some 14), .reference "turn" (some 23), .reference "pen" (some 32),
    .reference "go" (some 36), .reference "print" (some 41), .reference "repeat" (some 45),
    .reference "learn" (some 49), .reference "call" (some 53),
    .choice [54, 55, 56, 57, 58, 59, 60, 61],
    .token .newline, .reference "statement" (some 62), .choice [63, 64], .repetition 0 none [65],
    -- A block, and a program.
    .literal "\x7b", .reference "body" (some 66), .literal "\x7d", .sequence [67, 68, 69],
    .reference "body" (some 66), .token .endOfStream, .sequence [71, 72]]⟩

set_option maxRecDepth 100000 in
theorem turtle_rules :
    turtle.toOption.map (fun grammar => (grammar.arena, grammar.root, grammar.config)) =
      some (arena, Place.program, config) := by
  decide +kernel

def nameRule : NameRule arena Place.name :=
  ⟨rfl, rfl, rfl, rfl, rfl, rfl, rfl, rfl⟩

def blockRule : BlockRule arena Place.block Place.body :=
  ⟨rfl, rfl, rfl, rfl⟩

section

variable {passes depth : Nat} {t t' : Tokenizer} {b : Bool}

theorem Ready.form (h : Ready t) (hbody : ∀ d < depth, ReadsBody arena passes d Place.body) {id : RuleId}
    (hid : id ∈ Place.forms) (hm : arena.matchWithin passes depth id t = (.ok b, t')) :
    FormOutcome t b t' := by
  simp only [Place.forms, List.mem_cons, List.not_mem_nil, or_false] at hid
  rcases hid with rfl | rfl | rfl | rfl | rfl | rfl | rfl
  . obtain ⟨d, _, hm⟩ := Arena.matchWithin_reference_ok rfl hm
    refine h.measured rfl rfl ?_ (by decide) rfl (fun _ _ => DerivesCalling.move) hm
    exact .cons rfl (.cons rfl (.cons rfl (.cons rfl .nil)))
  . obtain ⟨d, _, hm⟩ := Arena.matchWithin_reference_ok rfl hm
    refine h.measured rfl rfl ?_ (by decide) rfl (fun _ _ => DerivesCalling.turn) hm
    exact .cons rfl (.cons rfl (.cons rfl (.cons rfl (.cons rfl (.cons rfl .nil)))))
  . obtain ⟨d, _, hm⟩ := Arena.matchWithin_reference_ok rfl hm
    refine h.pen rfl ?_ hm
    exact .cons rfl (.cons rfl (.cons rfl (.cons rfl (.cons rfl (.cons rfl (.cons rfl (.cons rfl .nil)))))))
  . obtain ⟨d, _, hm⟩ := Arena.matchWithin_reference_ok rfl hm
    exact h.go rfl rfl rfl rfl hm
  . obtain ⟨d, _, hm⟩ := Arena.matchWithin_reference_ok rfl hm
    exact h.print rfl rfl rfl rfl rfl hm
  . obtain ⟨d, hd, hm⟩ := Arena.matchWithin_reference_ok rfl hm
    exact h.repetition rfl rfl rfl rfl blockRule (fun d _ => hbody d (by omega)) hm
  . obtain ⟨d, hd, hm⟩ := Arena.matchWithin_reference_ok rfl hm
    exact h.learn rfl rfl rfl rfl nameRule blockRule (fun d _ => hbody d (by omega)) hm

theorem Ready.statement (h : Ready t) (hbody : ∀ d < depth, ReadsBody arena passes d Place.body)
    (hm : arena.matchWithin passes depth Place.statement t = (.ok b, t')) : Ready t' ∧ LineRead t t' b := by
  obtain ⟨d, hd, hm⟩ := Arena.matchWithin_choice_ok rfl hm
  have hforms := h.forms Place.forms ?_ ?_ hm
  . exact ⟨hforms.1, hforms.2.1⟩
  . intro id hid t b t' h hm
    exact h.form (fun d _ => hbody d (by omega)) hid hm
  . intro t b t' h hm
    obtain ⟨d', _, hm⟩ := Arena.matchWithin_reference_ok rfl hm
    exact h.call rfl rfl rfl rfl nameRule hm

theorem Ready.line (h : Ready t) (hbody : ∀ d < depth, ReadsBody arena passes d Place.body)
    (hm : arena.matchWithin passes depth Place.line t = (.ok b, t')) : Ready t' ∧ LineRead t t' b := by
  obtain ⟨d, hd, hm⟩ := Arena.matchWithin_choice_ok rfl hm
  rcases Arena.matchAny_cons_ok hm with ⟨rfl, hfirst⟩ | ⟨u, hfirst, hm⟩
  . have htakes := h.token rfl (by decide) hfirst
    obtain ⟨newline, hnewline, htook⟩ := htakes.took (by simp +contextual)
    refine ⟨htakes.1, LineRead.matched (by simp) (DerivesCalling.newline ?_ DerivesCalling.empty) htook⟩
    simpa using hnewline
  . have htakes := h.token rfl (by decide) hfirst
    obtain ⟨hu, hsame, _⟩ := htakes.nothing
    obtain ⟨d', hd', hm⟩ := Arena.matchWithin_reference_ok rfl (Arena.matchAny_singleton_ok hm)
    obtain ⟨hready, hline⟩ := hu.statement (fun d _ => hbody d (by omega)) hm
    refine ⟨hready, ?_⟩
    cases hline with
    | matched hne hbody htook => exact LineRead.matched hne hbody ((took_nil hsame).trans htook)
    | ended hends => exact LineRead.ended (hends.prepend DerivesCalling.empty (took_nil hsame))

-- A body goes on line by line. Its blocks are bodies that are entered within less depth.
theorem reads_body (passes depth : Nat) : ReadsBody arena passes depth Place.body := by
  induction depth using Nat.strongRecOn with
  | ind depth ih =>
    intro t b t' h hm
    obtain ⟨d, hd, hm⟩ := Arena.matchWithin_repetition_ok rfl hm
    refine Arena.matchRepetition_star_ok (I := Ready) (P := fun t t' => Ready t' ∧ Ends t t') ?_ ?_ h hm
    . intro t t' h hm
      obtain ⟨hready, hline⟩ := h.line (fun d _ => ih d (by omega)) (Arena.matchAll_singleton_ok hm)
      cases hline with
      | ended hends => exact ⟨hready, hends⟩
    . intro t u h hm
      have hm := Arena.matchAll_singleton_ok hm
      obtain ⟨hu, hline⟩ := h.line (fun d _ => ih d (by omega)) hm
      have hleads := arena.matchWithin_leads passes d Place.line t h.consistent
      rw [hm] at hleads
      cases hline with
      | matched hne hbody htook =>
        refine ⟨mark_ne_of_took h.consistent hu.consistent (hleads.forward true rfl) htook hne, hu, ?_⟩
        intro t' hends
        exact ⟨hends.1, hends.2.prepend hbody htook⟩

-- A body always matches, so that the verdict on a script is that of the leaf for the end of the stream.
theorem Ready.ending (h : Ready t) (hm : arena.matchWithin passes depth Place.program t = (.ok b, t')) :
    ∃ u, Ready u ∧ Ends t u ∧ u.acceptToken (fun token => token.kind = .endOfStream) = (.ok b, t') := by
  obtain ⟨d, _, hm⟩ := Arena.matchWithin_sequence_ok rfl hm
  rcases Arena.matchAll_cons_ok hm with ⟨_, hbody⟩ | ⟨u, hbody, hm⟩
  . obtain ⟨d', _, hbody⟩ := Arena.matchWithin_reference_ok rfl hbody
    have := (reads_body passes d' t false t' h hbody).1
    contradiction
  . obtain ⟨d', _, hbody⟩ := Arena.matchWithin_reference_ok rfl hbody
    obtain ⟨_, hu, hends⟩ := reads_body passes d' t true u h hbody
    exact ⟨u, hu, hends, Arena.matchWithin_token_ok rfl (Arena.matchAll_singleton_ok hm)⟩

theorem Ready.program (h : Ready t) (hm : arena.matchWithin passes depth Place.program t = (.ok true, t')) :
    ∃ n, Unclosed n (pieces t) := by
  obtain ⟨u, hu, hends, hm⟩ := h.ending hm
  have hnil := hu.acceptEnd hm
  cases hends with
  | dead hdead =>
    obtain ⟨token, hmem, _⟩ := hdead.next
    simp [hnil] at hmem
  | halted hunclosed htook _ =>
    simp only [Took, pieces, hnil, List.flatMap_nil, List.append_nil] at htook
    exact ⟨_, htook ▸ hunclosed⟩

end

/-! Whole documents. -/

theorem proper_of_upcoming {cursor after : Cursor} {token : Token}
    (h : config.upcoming cursor = (.ok token, after)) (hend : token.isEndOfStream = false) :
    Proper token := by
  unfold Config.upcoming at h
  split at h
  . next hscan =>
    simp only [Prod.mk.injEq, Except.ok.injEq] at h
    obtain ⟨rfl, rfl⟩ := h
    rcases Config.scan_ok hscan with ⟨rfl, _⟩ | ⟨hfound, hkept⟩
    . contradiction
    . exact ⟨hfound.shape, hkept, hend⟩
  . simp at h

theorem proper_of_clean {t : Tokenizer} (h : t.Clean) (hconfig : t.config = config) {cursor : Cursor}
    (hp : t.peek = config.upcoming cursor) : ∀ token ∈ t.remaining, Proper token := by
  induction hn : t.tokensLeft using Nat.strongRecOn generalizing t cursor with
  | ind n ih =>
    obtain ⟨token, after, hp', hnext, hclean⟩ := h.nextToken
    cases hend : token.isEndOfStream with
    | true => simp [Tokenizer.remaining_of_end hnext hend]
    | false =>
      have hlt := Tokenizer.nextToken_ok_tokensLeft_lt hnext hend
      rw [Tokenizer.remaining_of_token hnext hend]
      simp only [List.mem_cons, forall_eq_or_imp]
      constructor
      . exact proper_of_upcoming (hp.symm.trans hp') hend
      . have hpeek : (t.took token after).peek = config.upcoming after := by
          rw [Tokenizer.peek_took, hconfig]
        exact ih _ (by omega) hclean hconfig hpeek rfl

theorem ofText_ready (text : String) : Ready (.ofSource config (.ofText text)) := by
  have hclean := Tokenizer.ofText_clean config text
  constructor
  . exact hclean.consistent
  . rfl
  . simp [Tokenizer.stage, Tokenizer.ofSource]
  . exact proper_of_clean hclean rfl rfl

theorem eq_ok_of_toOption {ε α : Type} {result : Except ε α} {a : α} (h : result.toOption = some a) :
    result = .ok a := by
  cases result with
  | error error => simp [Except.toOption] at h
  | ok b => simpa [Except.toOption] using h

theorem exists_turtle : ∃ grammar, turtle = .ok grammar ∧
    grammar.arena = arena ∧ grammar.root = Place.program ∧ grammar.config = config := by
  obtain ⟨grammar, hg, hrules⟩ := Option.map_eq_some_iff.1 turtle_rules
  simp only [Prod.mk.injEq] at hrules
  exact ⟨grammar, eq_ok_of_toOption hg, hrules⟩

theorem rules_of_turtle {grammar : Grammar} (h : turtle = .ok grammar) :
    grammar.arena = arena ∧ grammar.root = Place.program ∧ grammar.config = config := by
  obtain ⟨grammar', hg, hrules⟩ := exists_turtle
  rw [hg, Except.ok.injEq] at h
  rw [← h]
  exact hrules

theorem tokenizer_eq {grammar : Grammar} (h : turtle = .ok grammar) (source : Source) :
    grammar.tokenizer source = .ofSource config source := by
  unfold tokenizer
  rw [(rules_of_turtle h).2.2]

theorem matchStream_eq {grammar : Grammar} (h : turtle = .ok grammar) (source : Source) :
    grammar.matchStream (grammar.tokenizer source) = arena.matchRule Place.program (.ofSource config source) := by
  obtain ⟨harena, hroot, hconfig⟩ := rules_of_turtle h
  unfold matchStream
  rw [tokenizer_eq h, harena, hroot, hconfig]
  rfl

theorem accepts_eq {grammar : Grammar} (h : turtle = .ok grammar) (text : String) :
    grammar.accepts text = (arena.matchRule Place.program (.ofSource config (.ofText text))).1 := by
  unfold accepts
  rw [matchStream_eq h]

theorem unclosed_of_accepts {text : String}
    (h : (arena.matchRule Place.program (.ofSource config (.ofText text))).1 = .ok true) :
    ∃ n, Unclosed n (pieces (.ofSource config (.ofText text))) := by
  cases hm : arena.matchRule Place.program (.ofSource config (.ofText text)) with
  | mk result t' =>
    rw [hm] at h
    subst h
    exact (ofText_ready text).program hm

/--
A text that is accepted is a script once its blocks are closed. It is a script as it stands if and only
if it closes as many blocks as it opens.
-/
theorem accepts_mended {grammar : Grammar} (hg : turtle = .ok grammar) {text : String}
    (h : grammar.accepts text = .ok true) :
    let tokens := (grammar.tokenizer (.ofText text)).readAll.tokens
    Derives .program (mended tokens) ∧
      (Derives .program tokens ↔ opened tokens = closed tokens) := by
  rw [accepts_eq hg] at h
  obtain ⟨n, hn⟩ := unclosed_of_accepts h
  obtain ⟨ending, hending, htokens⟩ := (Tokenizer.ofText_clean config text).readAll_tokens
  dsimp only
  rw [tokenizer_eq hg, htokens]
  refine ⟨hn.derives_mended ?_ hending, hn.derives_iff hending⟩
  intro token hmem
  exact ((ofText_ready text).proper token hmem).notEnd

def gluedBlock : String :=
  "repeat 4 \x7b x\x7d"

theorem accepts_mended_gluedBlock :
    ∃ grammar, turtle = .ok grammar ∧ grammar.accepts gluedBlock = .ok true ∧
      Derives .program (mended (grammar.tokenizer (.ofText gluedBlock)).readAll.tokens) ∧
      ¬Derives .program (grammar.tokenizer (.ofText gluedBlock)).readAll.tokens := by
  obtain ⟨grammar, hg, _⟩ := exists_turtle
  have haccepts : grammar.accepts gluedBlock = .ok true := by
    rw [accepts_eq hg]
    exact eq_ok_of_toOption (by decide +kernel)
  obtain ⟨hmended, hiff⟩ := accepts_mended hg haccepts
  refine ⟨grammar, hg, haccepts, hmended, ?_⟩
  rw [hiff, tokenizer_eq hg]
  decide +kernel

def unclosedBlock : String :=
  "repeat 4 \x7b"

theorem accepts_unclosedBlock :
    ∃ grammar, turtle = .ok grammar ∧ grammar.accepts unclosedBlock = .ok true ∧
      ¬Derives .program (grammar.tokenizer (.ofText unclosedBlock)).readAll.tokens := by
  obtain ⟨grammar, hg, _⟩ := exists_turtle
  have haccepts : grammar.accepts unclosedBlock = .ok true := by
    rw [accepts_eq hg]
    exact eq_ok_of_toOption (by decide +kernel)
  refine ⟨grammar, hg, haccepts, ?_⟩
  intro hderives
  have hbalanced := hderives.balanced
  rw [tokenizer_eq hg] at hbalanced
  revert hbalanced
  decide +kernel

end TokenGrammar.Grammar.Turtle
