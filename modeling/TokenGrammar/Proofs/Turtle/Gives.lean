import TokenGrammar.Proofs.Turtle.Soundness

/-!
What the rules of the turtle language give for the tokens to come: the verdict, and the tokens that are
left. It is put together from what their children give, whatever the bounds of the match are, as long as
there is a verdict.
-/

namespace TokenGrammar.Grammar.Turtle

def Answers (attempt : Tokenizer → Attempt) (verdict : Bool) (before after : List Token) : Prop :=
  ∀ (t : Tokenizer) (b : Bool) (t' : Tokenizer), Ready t → t.remaining = before →
    attempt t = (.ok b, t') → b = verdict ∧ Ready t' ∧ t'.remaining = after

def Gives (id : RuleId) (verdict : Bool) (before after : List Token) : Prop :=
  ∀ passes depth, Answers (arena.matchWithin passes depth id) verdict before after

def GivesAll (rules : List RuleId) (verdict : Bool) (before after : List Token) : Prop :=
  ∀ passes depth, Answers (Arena.matchAll (arena.matchWithin passes depth) rules) verdict before after

def GivesAny (rules : List RuleId) (verdict : Bool) (before after : List Token) : Prop :=
  ∀ passes depth, Answers (Arena.matchAny (arena.matchWithin passes depth) rules) verdict before after

def GivesLoop (id : RuleId) (body : List RuleId) (before after : List Token) : Prop :=
  ∀ passes depth left count,
    Answers (Arena.matchRepetition id 0 none (Arena.matchAll (arena.matchWithin passes depth) body)
      left count) true before after

section

variable {id : RuleId} {rules : List RuleId} {verdict : Bool} {before middle after : List Token}

theorem GivesAll.singleton (h : Gives id verdict before after) : GivesAll [id] verdict before after := by
  intro passes depth t b t' ht hremaining hm
  exact h passes depth t b t' ht hremaining (Arena.matchAll_singleton_ok hm)

theorem GivesAll.cons (h : Gives id true before middle) (hrest : GivesAll rules verdict middle after) :
    GivesAll (id :: rules) verdict before after := by
  intro passes depth t b t' ht hremaining hm
  rcases Arena.matchAll_cons_ok hm with ⟨_, hfirst⟩ | ⟨u, hfirst, hm⟩
  . obtain ⟨hb, _⟩ := h passes depth t false t' ht hremaining hfirst
    contradiction
  . obtain ⟨_, hu, hmiddle⟩ := h passes depth t true u ht hremaining hfirst
    exact hrest passes depth u b t' hu hmiddle hm

theorem GivesAll.stop (h : Gives id false before after) : GivesAll (id :: rules) false before after := by
  intro passes depth t b t' ht hremaining hm
  rcases Arena.matchAll_cons_ok hm with ⟨rfl, hfirst⟩ | ⟨u, hfirst, _⟩
  . exact h passes depth t false t' ht hremaining hfirst
  . obtain ⟨hb, _⟩ := h passes depth t true u ht hremaining hfirst
    contradiction

theorem GivesAny.singleton (h : Gives id verdict before after) : GivesAny [id] verdict before after := by
  intro passes depth t b t' ht hremaining hm
  exact h passes depth t b t' ht hremaining (Arena.matchAny_singleton_ok hm)

theorem GivesAny.first (h : Gives id true before after) : GivesAny (id :: rules) true before after := by
  intro passes depth t b t' ht hremaining hm
  rcases Arena.matchAny_cons_ok hm with ⟨rfl, hfirst⟩ | ⟨u, hfirst, _⟩
  . exact h passes depth t true t' ht hremaining hfirst
  . obtain ⟨hb, _⟩ := h passes depth t false u ht hremaining hfirst
    contradiction

theorem GivesAny.next (h : Gives id false before middle) (hrest : GivesAny rules verdict middle after) :
    GivesAny (id :: rules) verdict before after := by
  intro passes depth t b t' ht hremaining hm
  rcases Arena.matchAny_cons_ok hm with ⟨_, hfirst⟩ | ⟨u, hfirst, hm⟩
  . obtain ⟨hb, _⟩ := h passes depth t true t' ht hremaining hfirst
    contradiction
  . obtain ⟨_, hu, hmiddle⟩ := h passes depth t false u ht hremaining hfirst
    exact hrest passes depth u b t' hu hmiddle hm

theorem GivesAny.skip {earlier : List RuleId} (h : ∀ id ∈ earlier, Gives id false before before)
    (hrest : GivesAny rules verdict before after) : GivesAny (earlier ++ rules) verdict before after := by
  induction earlier with
  | nil => exact hrest
  | cons id earlier ih =>
    apply GivesAny.next (h id (by simp))
    exact ih fun id hid => h id (List.mem_cons_of_mem _ hid)

theorem GivesLoop.stop (h : GivesAll rules false before after) : GivesLoop id rules before after := by
  intro passes depth left count t b t' ht hremaining hm
  cases left with
  | zero => simp [Arena.matchRepetition] at hm
  | succ left =>
    simp only [Arena.matchRepetition, Option.any_none, Bool.false_eq_true, ↓reduceIte, Nat.zero_le,
      decide_true] at hm
    split at hm
    . simp at hm
    . next hpass =>
      simp only [Prod.mk.injEq, Except.ok.injEq] at hm
      obtain ⟨rfl, rfl⟩ := hm
      obtain ⟨_, hready, hafter⟩ := h passes depth t false _ ht hremaining hpass
      exact ⟨rfl, hready, hafter⟩
    . next hpass =>
      obtain ⟨hb, _⟩ := h passes depth t true _ ht hremaining hpass
      contradiction

theorem GivesLoop.step (h : GivesAll rules true before middle) (hne : middle ≠ before)
    (hrest : GivesLoop id rules middle after) : GivesLoop id rules before after := by
  intro passes depth left count t b t' ht hremaining hm
  cases left with
  | zero => simp [Arena.matchRepetition] at hm
  | succ left =>
    simp only [Arena.matchRepetition, Option.any_none, Bool.false_eq_true, ↓reduceIte, Nat.zero_le,
      decide_true] at hm
    split at hm
    . simp at hm
    . next hpass =>
      obtain ⟨hb, _⟩ := h passes depth t false _ ht hremaining hpass
      contradiction
    . next u hpass =>
      obtain ⟨_, hu, hmiddle⟩ := h passes depth t true u ht hremaining hpass
      have hleads := Arena.matchAll_leads (arena.matchWithin_leads passes depth) rules ht.consistent
      rw [hpass] at hleads
      have hmark : u.mark ≠ t.mark := by
        apply mark_ne_of_remaining ht.consistent hu.consistent (hleads.forward true rfl)
        rw [hmiddle, hremaining]
        exact hne
      rw [if_neg hmark] at hm
      exact hrest passes depth left (count + 1) u b t' hu hmiddle hm

theorem Gives.sequence (hid : arena.get? id = some (.sequence rules))
    (h : GivesAll rules verdict before after) : Gives id verdict before after := by
  intro passes depth t b t' ht hremaining hm
  obtain ⟨d, _, hm⟩ := Arena.matchWithin_sequence_ok hid hm
  exact h passes d t b t' ht hremaining hm

theorem Gives.choice (hid : arena.get? id = some (.choice rules))
    (h : GivesAny rules verdict before after) : Gives id verdict before after := by
  intro passes depth t b t' ht hremaining hm
  obtain ⟨d, _, hm⟩ := Arena.matchWithin_choice_ok hid hm
  exact h passes d t b t' ht hremaining hm

theorem Gives.repetition (hid : arena.get? id = some (.repetition 0 none rules))
    (h : GivesLoop id rules before after) : Gives id true before after := by
  intro passes depth t b t' ht hremaining hm
  obtain ⟨d, _, hm⟩ := Arena.matchWithin_repetition_ok hid hm
  exact h passes d passes 0 t b t' ht hremaining hm

theorem Gives.reference {name : String} {target : RuleId}
    (hid : arena.get? id = some (.reference name (some target))) (h : Gives target verdict before after) :
    Gives id verdict before after := by
  intro passes depth t b t' ht hremaining hm
  obtain ⟨d, _, hm⟩ := Arena.matchWithin_reference_ok hid hm
  exact h passes d t b t' ht hremaining hm

end

/-! Leaves and names. -/

def Leaf (id : RuleId) (test : Token → Bool) : Prop :=
  ∀ (passes depth : Nat) (t : Tokenizer) (b : Bool) (t' : Tokenizer), Ready t →
    arena.matchWithin passes depth id t = (.ok b, t') → Takes test t b t'

section

variable {id : RuleId} {test : Token → Bool} {token : Token} {tokens rest : List Token}

theorem Leaf.take (h : Leaf id test) (htoken : test token = true) : Gives id true (token :: rest) rest := by
  intro passes depth t b t' ht hremaining hm
  obtain ⟨hready, ⟨_, _, hnone⟩ | ⟨hb, token', _, hremaining'⟩⟩ := h passes depth t b t' ht hm
  . have := hnone token (by simp [hremaining])
    simp [htoken] at this
  . rw [hremaining, List.cons.injEq] at hremaining'
    exact ⟨hb, hready, hremaining'.2.symm⟩

theorem Leaf.decline (h : Leaf id test) (hnone : ∀ token ∈ tokens.head?, test token = false) :
    Gives id false tokens tokens := by
  intro passes depth t b t' ht hremaining hm
  obtain ⟨hready, ⟨hb, hsame, _⟩ | ⟨_, token', htoken, hremaining'⟩⟩ := h passes depth t b t' ht hm
  . exact ⟨hb, hready, hsame.trans hremaining⟩
  . rw [hremaining] at hremaining'
    have := hnone token' (by simp [hremaining'])
    simp [htoken] at this

theorem leaf_token {kind : TokenKind} (hid : arena.get? id = some (.token kind))
    (hkind : kind ≠ .endOfStream) : Leaf id fun token => token.kind = kind := by
  intro passes depth t b t' ht hm
  exact ht.token hid hkind hm

theorem leaf_number (hid : arena.get? id = some (.token .number)) (hnumber : token.kind = .number) :
    Gives id true (token :: rest) rest := by
  apply (leaf_token hid (by decide)).take
  simpa using hnumber

theorem leaf_word {word : String} (hid : arena.get? id = some (.literal word))
    (hword : isKeyword word = true) : Leaf id fun token => [word].any (spells · token) := by
  intro passes depth t b t' ht hm
  simpa using ht.literal hid (Or.inl hword) hm

theorem leaf_keywords {ids : List RuleId} {words : List String} (hid : arena.get? id = some (.choice ids))
    (hids : List.Forall₂ (fun id word => arena.get? id = some (.literal word)) ids words)
    (hwords : words.all isKeyword = true) : Leaf id fun token => words.any (spells · token) := by
  intro passes depth t b t' ht hm
  exact ht.keywordRule hid hids hwords hm

theorem not_isIdentifier_of_part {stem : List Char} {c : Char} (cs : List Char)
    (hstem : isIdentifier stem = true) (hc : isIdentifierChar c = false) :
    isIdentifier (stem ++ c :: cs) = false := by
  cases stem with
  | nil => simp [isIdentifier] at hstem
  | cons d ds => simp [isIdentifier, hc]

theorem gives_name (h : isName token = true) : Gives Place.name true (token :: rest) rest := by
  intro passes depth t b t' ht hremaining hm
  obtain ⟨hready, hread⟩ := ht.readName nameRule hm
  cases hread with
  | name _ hremaining' =>
    rw [hremaining, List.cons.injEq] at hremaining'
    exact ⟨rfl, hready, hremaining'.2.symm⟩
  | none _ hnone =>
    have := hnone token (by simp [hremaining])
    simp [startsName_of_isName h] at this
  | part hremaining' _ htext hstem hc _ =>
    rw [hremaining, List.cons.injEq] at hremaining'
    rw [← hremaining'.1] at htext
    simp [isName, htext, not_isIdentifier_of_part _ hstem hc] at h

theorem gives_name_none (h : ∀ token ∈ tokens.head?, startsName token = false) :
    Gives Place.name false tokens tokens := by
  intro passes depth t b t' ht hremaining hm
  obtain ⟨hready, hread⟩ := ht.readName nameRule hm
  have hstuck : Stuck t := by
    unfold Stuck
    rw [hremaining]
    exact h
  obtain ⟨hb, hsame⟩ := hread.stuck hstuck
  exact ⟨hb, hready, hsame.trans hremaining⟩

theorem Ready.acceptEnd_of_nil {t t' : Tokenizer} {b : Bool} (h : Ready t) (hnil : t.remaining = [])
    (hm : t.acceptToken (fun token => token.kind = .endOfStream) = (.ok b, t')) :
    b = true ∧ Ready t' ∧ t'.remaining = [] := by
  rw [Tokenizer.acceptToken_eq h.consistent] at hm
  split at hm
  . simp at hm
  . next token cursor hp =>
    have hread := Tokenizer.peek_readBefore h.consistent hp
    have hend : token.isEndOfStream = true := by
      cases hend : token.isEndOfStream with
      | true => rfl
      | false => simp [Tokenizer.remaining_cons h.consistent hp hend] at hnil
    have hkind : decide (token.kind = .endOfStream) = true := hend
    simp only [hkind, ↓reduceIte, Prod.mk.injEq, Except.ok.injEq] at hm
    obtain ⟨rfl, rfl⟩ := hm
    have hcons := Tokenizer.took_consistent (t := t) hread
    have hrest : (t.took token cursor).remaining = [] := by
      rw [Tokenizer.remaining_of_upcoming hcons (Tokenizer.peek_took t token cursor)]
      obtain ⟨_, hinput⟩ := hread.atEnd hend
      obtain ⟨input, line⟩ := cursor
      obtain rfl : input = [] := hinput
      apply Tokenizer.tokensFrom_nil
    refine ⟨rfl, ⟨hcons, h.config, by simp [Tokenizer.stage, Tokenizer.took], ?_⟩, hrest⟩
    simp [hrest]

theorem gives_end : Gives Place.ending true [] [] := by
  intro passes depth t b t' ht hremaining hm
  exact ht.acceptEnd_of_nil hremaining (Arena.matchWithin_token_ok rfl hm)

end

end TokenGrammar.Grammar.Turtle
