import TokenGrammar.Proofs.Match.Verdict
import TokenGrammar.Proofs.Tokenizer.Remaining

/-!
The rule for identifiers, character by character. It takes the identifier with which the word that comes
next begins (`IdentifierRule.matchIdentifier`), and what is left of the word stays to be read. If the end of
the word is required after it, nothing may be left (`IdentifierRule.matchWhole`).
-/

namespace TokenGrammar

namespace Config

def startsIdentifier (config : Config) (c : Char) : Bool :=
  CharClass.letter.accepts config.caseSensitive (.char c)

def continuesIdentifier (config : Config) (c : Char) : Bool :=
  CharClass.alphanumeric.accepts config.caseSensitive (.char c) ||
    (CharClass.exact '_').accepts config.caseSensitive (.char c)

def NoIdentifier (config : Config) (tokens : List Token) : Prop :=
  ∀ token ∈ tokens.head?, token.kind = .word →
    ∀ c ∈ token.text.toList.head?, config.startsIdentifier c = false

end Config

namespace Tokenizer

structure InsideWord (config : Config) (line : Nat) (cs : List Char) (cursor : Cursor)
    (t : Tokenizer) : Prop where
  consistent : t.Consistent
  view : t.view = ⟨config, if cs = [] then .atEnd else .inside, config.afterChar line cs cursor⟩

section

variable {t t' : Tokenizer} {test : WordRead → Bool} {b : Bool} {config : Config} {line : Nat} {c : Char}
  {cs : List Char} {cursor : Cursor}

theorem view_of_acceptWordChar (h : t.Consistent) (hm : t.acceptWordChar test = (.ok b, t')) :
    t'.Consistent ∧ t.view.acceptWordChar test = (.ok b, t'.view) := by
  have hleads := acceptWordChar_leads h test
  have hview := acceptWordChar_view h test
  rw [hm] at hleads hview
  exact ⟨hleads.consistent, hview.symm⟩

theorem alongside_of_view (h : t.Consistent) (h' : t'.Consistent) {stage : Stage}
    (hview : t'.view = { t.view with stage }) (hstage : stage ≠ .atEnd) :
    t'.Alongside t ∧ t'.stage ≠ .atEnd := by
  refine ⟨⟨h', h, congrArg View.config hview, congrArg View.ahead hview⟩, ?_⟩
  rw [show t'.stage = stage from congrArg View.stage hview]
  exact hstage

theorem acceptWordChar_first (h : t.Consistent) (hstage : t.stage ≠ .atEnd)
    (hnot : test .notAWord = false) (hm : t.acceptWordChar test = (.ok b, t')) :
    b = false ∧ (t'.Alongside t ∧ t'.stage ≠ .atEnd) ∧
        (∀ token ∈ t.remaining.head?, token.kind = .word →
          ∀ c ∈ token.text.toList.head?, test (.char c) = false) ∨
      b = true ∧ ∃ token c cs cursor, t.remaining = token :: t.config.tokensFrom cursor ∧
        token.kind = .word ∧ token.text.toList = c :: cs ∧ test (.char c) = true ∧
        t'.InsideWord t.config token.line cs cursor := by
  obtain ⟨hcons, hview⟩ := view_of_acceptWordChar h hm
  have hstage : t.view.stage ≠ .atEnd := hstage
  have hahead : t.view.ahead = t.peek := rfl
  unfold View.acceptWordChar at hview
  rw [if_neg hstage, hahead] at hview
  split at hview
  . simp at hview
  . next token cursor hp =>
    have hhead := remaining_head h hp
    split at hview
    . next c cs hk ht =>
      split at hview
      . next htest =>
        simp only [Prod.mk.injEq, Except.ok.injEq] at hview
        have hnotEnd : token.isEndOfStream = false := by simp [Token.isEndOfStream, hk]
        have hremaining := remaining_cons h hp hnotEnd
        exact Or.inr ⟨hview.1.symm, token, c, cs, cursor, hremaining, hk, ht, htest, hcons, hview.2.symm⟩
      . next htest =>
        simp only [Prod.mk.injEq, Except.ok.injEq] at hview
        have hsame : t'.Alongside t ∧ t'.stage ≠ .atEnd := by
          by_cases hinside : t.view.stage = .inside
          . rw [if_pos hinside] at hview
            exact alongside_of_view h hcons hview.2.symm hstage
          . rw [if_neg hinside] at hview
            exact alongside_of_view h hcons hview.2.symm (by decide)
        refine Or.inl ⟨hview.1.symm, hsame, ?_⟩
        intro token' hmem hk' c' hc'
        rw [hhead token' hmem, ht] at hc'
        simp only [List.head?_cons, Option.mem_def, Option.some.injEq] at hc'
        simpa [← hc'] using htest
    . next hne =>
      simp only [Prod.mk.injEq, Except.ok.injEq] at hview
      have hsame := alongside_of_view h hcons hview.2.symm (by decide)
      refine Or.inl ⟨by rw [← hview.1, hnot], hsame, ?_⟩
      intro token' hmem hk' c' hc'
      rw [hhead token' hmem] at hk' hc'
      cases ht : token.text.toList with
      | nil => simp [ht] at hc'
      | cons c cs => exact absurd ht (hne c cs hk')

theorem remaining_of_view (h : t.Consistent) {stage : Stage}
    (hview : t.view = ⟨config, stage, config.upcoming cursor⟩) :
    t.remaining = config.tokensFrom cursor := by
  have hconfig : t.config = config := congrArg View.config hview
  have hpeek : t.peek = config.upcoming cursor := congrArg View.ahead hview
  rw [← hconfig] at hpeek ⊢
  apply remaining_of_upcoming h hpeek

namespace InsideWord

theorem config_eq (h : t.InsideWord config line cs cursor) : t.config = config :=
  congrArg View.config h.view

theorem remaining (h : t.InsideWord config line cs cursor) :
    t.remaining = Token.leftOver line cs ++ config.tokensFrom cursor := by
  have hpeek : t.peek = config.afterChar line cs cursor := congrArg View.ahead h.view
  rw [← h.config_eq] at hpeek ⊢
  apply remaining_of_afterChar h.consistent hpeek

theorem acceptWordChar (h : t.InsideWord config line (c :: cs) cursor)
    (hm : t.acceptWordChar test = (.ok b, t')) :
    b = test (.char c) ∧ t'.InsideWord config line (if b then cs else c :: cs) cursor := by
  obtain ⟨hcons, hview⟩ := view_of_acceptWordChar h.consistent hm
  rw [h.view] at hview
  simp only [View.acceptWordChar, Config.afterChar, reduceCtorEq, ↓reduceIte, String.toList_ofList]
    at hview
  split at hview
  . next htest =>
    simp only [Prod.mk.injEq, Except.ok.injEq] at hview
    obtain ⟨rfl, hview⟩ := hview
    exact ⟨htest.symm, hcons, hview.symm⟩
  . next htest =>
    simp only [Prod.mk.injEq, Except.ok.injEq] at hview
    obtain ⟨rfl, hview⟩ := hview
    exact ⟨by simpa using htest, hcons, hview.symm⟩

theorem acceptWordEnd (h : t.InsideWord config line [] cursor)
    (hm : t.acceptWordChar test = (.ok b, t')) :
    b = test .endOfWord ∧ t'.Consistent ∧
      t'.view = ⟨config, if b then .past else .atEnd, config.upcoming cursor⟩ := by
  obtain ⟨hcons, hview⟩ := view_of_acceptWordChar h.consistent hm
  rw [h.view] at hview
  simp only [View.acceptWordChar, ↓reduceIte] at hview
  split at hview
  . next htest =>
    simp only [Prod.mk.injEq, Except.ok.injEq] at hview
    obtain ⟨rfl, hview⟩ := hview
    exact ⟨htest.symm, hcons, hview.symm⟩
  . next htest =>
    simp only [Prod.mk.injEq, Except.ok.injEq] at hview
    obtain ⟨rfl, hview⟩ := hview
    exact ⟨by simpa using htest, hcons, hview.symm⟩

theorem acceptTest (h : t.InsideWord config line cs cursor) (hend : test .endOfWord = false)
    (hm : t.acceptWordChar test = (.ok b, t')) :
    b = false ∧ t'.InsideWord config line cs cursor ∧ (∀ c ∈ cs.head?, test (.char c) = false) ∨
      b = true ∧ ∃ c rest, cs = c :: rest ∧ test (.char c) = true ∧
        t'.InsideWord config line rest cursor := by
  cases cs with
  | nil =>
    obtain ⟨hb, hcons, hview⟩ := h.acceptWordEnd hm
    rw [hend] at hb
    subst hb
    exact Or.inl ⟨rfl, ⟨hcons, hview⟩, by simp⟩
  | cons c rest =>
    obtain ⟨hb, hinside⟩ := h.acceptWordChar hm
    cases b with
    | false => exact Or.inl ⟨rfl, hinside, by simpa using hb⟩
    | true => exact Or.inr ⟨rfl, c, rest, rfl, hb.symm, hinside⟩

end InsideWord

end

end Tokenizer

structure IdentifierRule (arena : Arena) (identifier : RuleId) where
  {letter alphanumeric underscore either rest : RuleId}
  letter_eq : arena.get? letter = some (.charClass .letter)
  alphanumeric_eq : arena.get? alphanumeric = some (.charClass .alphanumeric)
  underscore_eq : arena.get? underscore = some (.charClass (.exact '_'))
  either_eq : arena.get? either = some (.choice [alphanumeric, underscore])
  rest_eq : arena.get? rest = some (.repetition 0 none [either])
  identifier_eq : arena.get? identifier = some (.sequence [letter, rest])

namespace IdentifierRule

open Tokenizer

variable {arena : Arena} {identifier : RuleId} (rule : IdentifierRule arena identifier)
  {passes depth : Nat} {t t' : Tokenizer} {b : Bool} {config : Config} {line : Nat} {cs : List Char}
  {cursor : Cursor}

include rule

theorem matchEither (h : t.InsideWord config line cs cursor)
    (hm : arena.matchWithin passes depth rule.either t = (.ok b, t')) :
    b = false ∧ t'.InsideWord config line cs cursor ∧
        (∀ c ∈ cs.head?, config.continuesIdentifier c = false) ∨
      b = true ∧ t'.mark ≠ t.mark ∧ ∃ c rest, cs = c :: rest ∧ config.continuesIdentifier c = true ∧
        t'.InsideWord config line rest cursor := by
  obtain ⟨d, _, hm⟩ := Arena.matchWithin_choice_ok rule.either_eq hm
  rcases Arena.matchAny_cons_ok hm with ⟨rfl, hfirst⟩ | ⟨u, hfirst, hm⟩
  . have hfirst := Arena.matchWithin_charClass_ok rule.alphanumeric_eq hfirst
    have hgained := acceptWordChar_gained h.consistent hfirst rfl rfl
    rcases h.acceptTest rfl hfirst with ⟨hb, _⟩ | ⟨_, c, rest, hcs, htest, hinside⟩
    . contradiction
    . rw [h.config_eq] at htest
      refine Or.inr ⟨rfl, hgained.mark_ne h.consistent, c, rest, hcs, ?_, hinside⟩
      simp [Config.continuesIdentifier, htest]
  . have hfirst := Arena.matchWithin_charClass_ok rule.alphanumeric_eq hfirst
    have hforward := (acceptWordChar_leads h.consistent _).forward false (by rw [hfirst])
    rw [hfirst] at hforward
    rcases h.acceptTest rfl hfirst with ⟨_, hu, hnone⟩ | ⟨hb, _⟩
    . rw [h.config_eq] at hnone
      have hsecond := Arena.matchWithin_charClass_ok rule.underscore_eq (Arena.matchAny_singleton_ok hm)
      rcases hu.acceptTest rfl hsecond with ⟨hb, hinside, hnone'⟩ | ⟨hb, c, rest, hcs, htest, hinside⟩
      . rw [hu.config_eq] at hnone'
        refine Or.inl ⟨hb, hinside, ?_⟩
        intro c hc
        simp [Config.continuesIdentifier, hnone c hc, hnone' c hc]
      . subst hb
        rw [hu.config_eq] at htest
        have hgained := acceptWordChar_gained hu.consistent hsecond rfl rfl
        have hmark := (hforward.trans_gained hgained).mark_ne h.consistent
        refine Or.inr ⟨rfl, hmark, c, rest, hcs, ?_, hinside⟩
        simp [Config.continuesIdentifier, htest]
    . contradiction

theorem matchRest (h : t.InsideWord config line cs cursor)
    (hm : arena.matchWithin passes depth rule.rest t = (.ok b, t')) :
    b = true ∧ t'.InsideWord config line (cs.dropWhile config.continuesIdentifier) cursor := by
  obtain ⟨d, _, hm⟩ := Arena.matchWithin_repetition_ok rule.rest_eq hm
  have step {t t' : Tokenizer} {b : Bool} {cs : List Char} (h : t.InsideWord config line cs cursor)
      (hm : Arena.matchAll (arena.matchWithin passes d) [rule.either] t = (.ok b, t')) :=
    rule.matchEither h (Arena.matchAll_singleton_ok hm)
  -- What is left of the word is known only along the loop, so that the loop is about all of its values.
  have hloop := Arena.matchRepetition_star_ok (I := fun t => ∃ cs, t.InsideWord config line cs cursor)
    (P := fun t t' => ∀ cs, t.InsideWord config line cs cursor →
      t'.InsideWord config line (cs.dropWhile config.continuesIdentifier) cursor) ?_ ?_ ⟨cs, h⟩ hm
  . exact ⟨hloop.1, hloop.2 cs h⟩
  . intro t t' _ hbody cs h
    rcases step h hbody with ⟨_, hinside, hnone⟩ | ⟨hb, _⟩
    . cases cs with
      | nil => exact hinside
      | cons c cs =>
        rw [List.dropWhile_cons_of_neg (by simpa using hnone)]
        exact hinside
    . contradiction
  . rintro t u ⟨cs, h⟩ hbody
    rcases step h hbody with ⟨hb, _⟩ | ⟨_, hmark, c, rest, _, _, hinside⟩
    . contradiction
    . refine ⟨hmark, ⟨rest, hinside⟩, ?_⟩
      intro t' hrest cs h
      rcases step h hbody with ⟨hb, _⟩ | ⟨_, _, c, rest, hcs, hc, hinside⟩
      . contradiction
      . rw [hcs, List.dropWhile_cons_of_pos hc]
        exact hrest rest hinside

theorem matchIdentifier (h : t.Consistent) (hstage : t.stage ≠ .atEnd)
    (hm : arena.matchWithin passes depth identifier t = (.ok b, t')) :
    b = false ∧ (t'.Alongside t ∧ t'.stage ≠ .atEnd) ∧ t.config.NoIdentifier t.remaining ∨
      b = true ∧ ∃ token c cs cursor, t.remaining = token :: t.config.tokensFrom cursor ∧
        token.kind = .word ∧ token.text.toList = c :: cs ∧ t.config.startsIdentifier c = true ∧
        t'.InsideWord t.config token.line (cs.dropWhile t.config.continuesIdentifier) cursor := by
  obtain ⟨d, _, hm⟩ := Arena.matchWithin_sequence_ok rule.identifier_eq hm
  rcases Arena.matchAll_cons_ok hm with ⟨rfl, hletter⟩ | ⟨u, hletter, hrest⟩
  . have hletter := Arena.matchWithin_charClass_ok rule.letter_eq hletter
    rcases acceptWordChar_first h hstage rfl hletter with hnone | ⟨hb, _⟩
    . exact Or.inl hnone
    . contradiction
  . have hletter := Arena.matchWithin_charClass_ok rule.letter_eq hletter
    have hrest := Arena.matchAll_singleton_ok hrest
    rcases acceptWordChar_first h hstage rfl hletter with
      ⟨hb, _⟩ | ⟨_, token, c, cs, cursor, hremaining, hk, ht, hc, hu⟩
    . contradiction
    . obtain ⟨hb, hinside⟩ := rule.matchRest hu hrest
      exact Or.inr ⟨hb, token, c, cs, cursor, hremaining, hk, ht, hc, hinside⟩

omit rule in
theorem matchWordEnd {wordEnd : RuleId} (hend : arena.get? wordEnd = some (.charClass .endOfWord))
    (h : t.InsideWord config line cs cursor)
    (hm : arena.matchWithin passes depth wordEnd t = (.ok b, t')) :
    cs = [] ∧ b = true ∧ t'.Consistent ∧ t'.view = ⟨config, .past, config.upcoming cursor⟩ ∨
      cs ≠ [] ∧ b = false ∧ t'.InsideWord config line cs cursor := by
  have hm := Arena.matchWithin_charClass_ok hend hm
  cases cs with
  | nil =>
    obtain ⟨hb, hcons, hview⟩ := h.acceptWordEnd hm
    have hb : b = true := hb
    subst hb
    exact Or.inl ⟨rfl, rfl, hcons, hview⟩
  | cons c cs =>
    obtain ⟨hb, hinside⟩ := h.acceptWordChar hm
    have hb : b = false := hb
    subst hb
    exact Or.inr ⟨by simp, rfl, hinside⟩

theorem matchWhole {whole wordEnd : RuleId}
    (hwhole : arena.get? whole = some (.sequence [identifier, wordEnd]))
    (hend : arena.get? wordEnd = some (.charClass .endOfWord)) (h : t.Consistent)
    (hstage : t.stage ≠ .atEnd) (hm : arena.matchWithin passes depth whole t = (.ok b, t')) :
    b = false ∧ (t'.Alongside t ∧ t'.stage ≠ .atEnd) ∧ t.config.NoIdentifier t.remaining ∨
      ∃ token c cs cursor, t.remaining = token :: t.config.tokensFrom cursor ∧
        token.kind = .word ∧ token.text.toList = c :: cs ∧ t.config.startsIdentifier c = true ∧
        let left := cs.dropWhile t.config.continuesIdentifier
        left = [] ∧ b = true ∧ t'.Consistent ∧
            t'.view = ⟨t.config, .past, t.config.upcoming cursor⟩ ∨
          left ≠ [] ∧ b = false ∧ t'.InsideWord t.config token.line left cursor := by
  obtain ⟨d, _, hm⟩ := Arena.matchWithin_sequence_ok hwhole hm
  rcases Arena.matchAll_cons_ok hm with ⟨rfl, hidentifier⟩ | ⟨u, hidentifier, hrest⟩
  . rcases rule.matchIdentifier h hstage hidentifier with hnone | ⟨hb, _⟩
    . exact Or.inl hnone
    . contradiction
  . rcases rule.matchIdentifier h hstage hidentifier with
      ⟨hb, _⟩ | ⟨_, token, c, cs, cursor, hremaining, hk, ht, hc, hu⟩
    . contradiction
    . refine Or.inr ⟨token, c, cs, cursor, hremaining, hk, ht, hc, ?_⟩
      exact matchWordEnd hend hu (Arena.matchAll_singleton_ok hrest)

end IdentifierRule

end TokenGrammar
