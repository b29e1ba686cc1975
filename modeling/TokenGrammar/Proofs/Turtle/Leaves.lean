import TokenGrammar.Proofs.Match.Verdict
import TokenGrammar.Proofs.Tokenizer.Remaining
import TokenGrammar.Proofs.Turtle.Script

/-!
What the leaves of the turtle language do to the tokens to come. A leaf for tokens takes the first of
them or leaves them as they are. A name takes the first of them if it is a name; otherwise it takes the
identifier with which the first of them begins, so that what is left of that word comes next.
-/

namespace TokenGrammar.Grammar.Turtle

structure Proper (token : Token) : Prop where
  shape : token.HasShape config
  kept : config.ignores token.kind = false
  notEnd : token.isEndOfStream = false

structure Ready (t : Tokenizer) : Prop where
  consistent : t.Consistent
  config : t.config = config
  stage : t.stage ≠ .atEnd
  proper : ∀ token ∈ t.remaining, Proper token

theorem Proper.first_of_kind {token : Token} (h : Proper token) (hk : token.kind ≠ .word) :
    ∃ c cs, token.text.toList = c :: cs ∧ Text.isAlphabetic c = false ∧ c ≠ '\x7b' ∧ c ≠ '\x7d' := by
  obtain ⟨hshape, hkept, hend⟩ := h
  unfold Token.HasShape at hshape
  unfold Token.isEndOfStream at hend
  cases hkind : token.kind with
  | word => contradiction
  | number =>
    simp only [hkind] at hshape
    obtain ⟨c, cs, htext, hdigit⟩ := hshape
    refine ⟨c, cs, htext, ?_⟩
    have hascii : c.toNat < 128 := by
      simp only [Char.isDigit, ge_iff_le, Bool.and_eq_true, decide_eq_true_eq] at hdigit
      have : c.toNat ≤ 57 := hdigit.2
      omega
    revert hdigit
    apply Text.of_ascii _ hascii
    decide +kernel
  | string =>
    simp only [hkind] at hshape
    obtain ⟨c, cs, htext, hquote⟩ := hshape
    obtain rfl : c = '"' := by simpa [Config.isQuote, config, Config.withLineComment] using hquote
    exact ⟨_, cs, htext, by decide⟩
  | newline =>
    simp only [hkind] at hshape
    exact ⟨'\n', [], by rw [hshape]; rfl, by decide⟩
  | endOfStream => simp [hkind] at hend
  | _ => simp [hkind, Config.ignores, config, Config.withLineComment] at hkept

theorem Proper.spells_of_literal {token : Token} (h : Proper token) {word : String}
    (hword : isKeyword word = true ∨ word = "\x7b" ∨ word = "\x7d")
    (hlit : Rule.literalAccepts word false token = true) : spells word token = true := by
  simp only [Rule.literalAccepts, Bool.and_eq_true] at hlit
  by_cases hk : token.kind = .word
  . simp [spells, hk, hlit.2]
  . obtain ⟨c, cs, htext, halpha, hopening, hclosing⟩ := h.first_of_kind hk
    rcases hword with hword | rfl | rfl
    . simp only [wordsEqual, Bool.false_eq_true, ↓reduceIte, decide_eq_true_eq] at hlit
      have := isIdentifier_of_lowercaseAll hword hlit.2
      simp [htext, isIdentifier, halpha] at this
    . simp [toList_of_opening hlit.2, hopening.symm] at htext
    . simp [toList_of_closing hlit.2, hclosing.symm] at htext

theorem not_spells_of_literal {word : String} {token : Token}
    (hlit : Rule.literalAccepts word false token = false) : spells word token = false := by
  rw [Bool.eq_false_iff]
  intro hspells
  simp only [spells, Bool.and_eq_true, decide_eq_true_eq] at hspells
  simp [Rule.literalAccepts, Token.isEndOfStream, hspells.1, hspells.2] at hlit

/-! Leaves for tokens. -/

theorem Ready.alongside {t t' : Tokenizer} (h : Ready t) (ht' : t'.Consistent)
    (hconfig : t'.config = t.config) (hpeek : t'.peek = t.peek) (hstage : t'.stage ≠ .atEnd) :
    Ready t' ∧ t'.remaining = t.remaining := by
  have hremaining : t'.remaining = t.remaining :=
    Tokenizer.remaining_congr ⟨ht', h.consistent, hconfig, hpeek⟩
  refine ⟨⟨ht', hconfig.trans h.config, hstage, ?_⟩, hremaining⟩
  rw [hremaining]
  exact h.proper

theorem Ready.took {t : Tokenizer} (h : Ready t) {token : Token} {cursor : Cursor}
    (hp : t.peek = (.ok token, cursor)) (hend : token.isEndOfStream = false) :
    Ready (t.took token cursor) ∧ t.remaining = token :: (t.took token cursor).remaining := by
  have hcons := Tokenizer.took_consistent (t := t) (Tokenizer.peek_readBefore h.consistent hp)
  have hremaining := Tokenizer.remaining_cons h.consistent hp hend
  have hrest : (t.took token cursor).remaining = t.config.tokensFrom cursor :=
    Tokenizer.remaining_of_upcoming hcons (Tokenizer.peek_took t token cursor)
  rw [hrest]
  refine ⟨⟨hcons, h.config, by simp [Tokenizer.stage, Tokenizer.took], ?_⟩, hremaining⟩
  intro token' hmem
  rw [hrest] at hmem
  apply h.proper
  rw [hremaining]
  exact List.mem_cons_of_mem token hmem

theorem Ready.held {t : Tokenizer} (h : Ready t) {token : Token} {cursor : Cursor}
    (hp : t.peek = (.ok token, cursor)) :
    Ready (t.held token cursor) ∧ (t.held token cursor).remaining = t.remaining := by
  apply h.alongside (Tokenizer.held_consistent (Tokenizer.peek_readBefore h.consistent hp)) rfl
  . rw [Tokenizer.peek_held, hp]
  . simp [Tokenizer.stage, Tokenizer.held]

def Takes (test : Token → Bool) (t : Tokenizer) (b : Bool) (t' : Tokenizer) : Prop :=
  Ready t' ∧
    (b = false ∧ t'.remaining = t.remaining ∧ (∀ token ∈ t.remaining.head?, test token = false) ∨
      b = true ∧ ∃ token, test token = true ∧ t.remaining = token :: t'.remaining)

theorem Ready.acceptToken {t t' : Tokenizer} (h : Ready t) {test : Token → Bool}
    (htest : ∀ token, token.isEndOfStream = true → test token = false) {b : Bool}
    (hm : t.acceptToken test = (.ok b, t')) : Takes test t b t' := by
  rw [Tokenizer.acceptToken_eq h.consistent] at hm
  split at hm
  . simp at hm
  . next token cursor hp =>
    split at hm
    . next htoken =>
      simp only [Prod.mk.injEq, Except.ok.injEq] at hm
      obtain ⟨rfl, rfl⟩ := hm
      have hend : token.isEndOfStream = false := by
        rw [Bool.eq_false_iff]
        intro hend
        simp [htest token hend] at htoken
      obtain ⟨hready, hremaining⟩ := h.took hp hend
      exact ⟨hready, Or.inr ⟨rfl, token, htoken, hremaining⟩⟩
    . next htoken =>
      simp only [Prod.mk.injEq, Except.ok.injEq] at hm
      obtain ⟨rfl, rfl⟩ := hm
      obtain ⟨hready, hremaining⟩ := h.held hp
      refine ⟨hready, Or.inl ⟨rfl, hremaining, ?_⟩⟩
      intro token' hmem
      rw [Tokenizer.remaining_head h.consistent hp token' hmem]
      simpa using htoken

theorem Ready.acceptEnd {t t' : Tokenizer} (h : Ready t)
    (hm : t.acceptToken (fun token => token.kind = .endOfStream) = (.ok true, t')) :
    t.remaining = [] := by
  rw [Tokenizer.acceptToken_eq h.consistent] at hm
  split at hm
  . simp at hm
  . next token cursor hp =>
    split at hm
    . next htoken => exact Tokenizer.remaining_nil h.consistent hp htoken
    . simp at hm

section

variable {arena : Arena} {passes depth : Nat} {id : RuleId} {t t' : Tokenizer} {b : Bool}

theorem Ready.literal (h : Ready t) {word : String} (hid : arena.get? id = some (.literal word))
    (hword : isKeyword word = true ∨ word = "\x7b" ∨ word = "\x7d")
    (hm : arena.matchWithin passes depth id t = (.ok b, t')) : Takes (spells word) t b t' := by
  have hm := Arena.matchWithin_literal_ok hid hm
  have hcase : t.config.caseSensitive = false := by
    rw [h.config]
    rfl
  rw [hcase] at hm
  obtain ⟨hready, hcases⟩ := h.acceptToken (by simp +contextual [Rule.literalAccepts]) hm
  refine ⟨hready, ?_⟩
  rcases hcases with ⟨hb, hremaining, hnone⟩ | ⟨hb, token, htoken, hremaining⟩
  . exact Or.inl ⟨hb, hremaining, fun token hmem => not_spells_of_literal (hnone token hmem)⟩
  . have hproper : Proper token := by
      apply h.proper
      rw [hremaining]
      apply List.mem_cons_self
    exact Or.inr ⟨hb, token, hproper.spells_of_literal hword htoken, hremaining⟩

theorem Ready.token (h : Ready t) {kind : TokenKind} (hid : arena.get? id = some (.token kind))
    (hkind : kind ≠ .endOfStream) (hm : arena.matchWithin passes depth id t = (.ok b, t')) :
    Takes (fun token => token.kind = kind) t b t' := by
  apply h.acceptToken _ (Arena.matchWithin_token_ok hid hm)
  intro token hend
  simp only [Token.isEndOfStream, decide_eq_true_eq] at hend
  simp [hend, hkind.symm]

theorem Takes.or {test test' : Token → Bool} {u : Tokenizer} (h : Takes test t false u)
    (h' : Takes test' u b t') : Takes (fun token => test token || test' token) t b t' := by
  obtain ⟨_, ⟨_, hsame, hnone⟩ | ⟨hb, _⟩⟩ := h
  . obtain ⟨hready, hcases⟩ := h'
    rw [hsame] at hcases
    refine ⟨hready, ?_⟩
    rcases hcases with ⟨hb, hremaining, hnone'⟩ | ⟨hb, token, htoken, hremaining⟩
    . refine Or.inl ⟨hb, hremaining, ?_⟩
      intro token hmem
      simp [hnone token hmem, hnone' token hmem]
    . exact Or.inr ⟨hb, token, by simp [htoken], hremaining⟩
  . contradiction

theorem Takes.weaken {test test' : Token → Bool} (h : Takes test t true t')
    (himp : ∀ token, test token = true → test' token = true) : Takes test' t true t' := by
  obtain ⟨hready, ⟨hb, _⟩ | ⟨hb, token, htoken, hremaining⟩⟩ := h
  . contradiction
  . exact ⟨hready, Or.inr ⟨rfl, token, himp token htoken, hremaining⟩⟩

theorem Ready.keywords (h : Ready t) {ids : List RuleId} {words : List String}
    (hids : List.Forall₂ (fun id word => arena.get? id = some (.literal word)) ids words)
    (hwords : words.all isKeyword = true)
    (hm : Arena.matchAny (arena.matchWithin passes depth) ids t = (.ok b, t')) :
    Takes (fun token => words.any (spells · token)) t b t' := by
  induction hids generalizing t with
  | nil =>
    simp only [Arena.matchAny, Prod.mk.injEq, Except.ok.injEq] at hm
    obtain ⟨rfl, rfl⟩ := hm
    exact ⟨h, Or.inl ⟨rfl, rfl, by simp⟩⟩
  | cons hid _ ih =>
    simp only [List.all_cons, Bool.and_eq_true] at hwords
    simp only [List.any_cons]
    rcases Arena.matchAny_cons_ok hm with ⟨rfl, hfirst⟩ | ⟨u, hfirst, hrest⟩
    . apply (h.literal hid (Or.inl hwords.1) hfirst).weaken
      intro token htoken
      simp [htoken]
    . have hu := h.literal hid (Or.inl hwords.1) hfirst
      exact hu.or (ih hu.1 hwords.2 hrest)

end

end TokenGrammar.Grammar.Turtle
