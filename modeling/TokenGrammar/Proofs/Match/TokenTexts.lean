import TokenGrammar.Proofs.Match.Likeness
import TokenGrammar.Proofs.Tokenizer.Delivery

/-!
What a grammar makes of a text depends on the kinds and texts of its tokens only. Lines, layout and all
that is left out of the tokens make no difference, neither to the verdict nor to how far the match goes
(`Grammar.matchStream_of_spelling_eq`).
-/

namespace TokenGrammar

def Token.spelling (token : Token) : TokenKind × String :=
  (token.kind, token.text)

theorem Token.like_iff {a b : Token} :
    a.Like Eq (fun _ _ => True) b ↔ a.spelling = b.spelling := by
  unfold Token.spelling
  rw [Prod.mk.injEq]
  constructor
  . intro h
    have htext := h.text
    rw [List.forall₂_eq_eq_eq, String.toList_inj] at htext
    exact ⟨h.kind, htext⟩
  . rintro ⟨hkind, htext⟩
    refine ⟨hkind, ?_, trivial⟩
    rw [List.forall₂_eq_eq_eq, htext]

structure Config.SameAhead (config : Config) (cursor cursor' : Cursor) : Prop where
  faultless : ∀ error, Read.fault error ∉ cursor.input
  faultless' : ∀ error, Read.fault error ∉ cursor'.input
  tokens : (config.tokensFrom cursor).map Token.spelling = (config.tokensFrom cursor').map Token.spelling

namespace Config

variable {config : Config} {cursor after : Cursor} {token : Token}

theorem tokensFrom_of_end (h : config.upcoming cursor = (.ok token, after))
    (hend : token.isEndOfStream = true) :
    config.tokensFrom cursor = [] ∧ config.tokensFrom after = [] ∧
      token.spelling = (.endOfStream, "") := by
  obtain ⟨htoken, hnil⟩ := (Tokenizer.upcoming_readBefore h).atEnd hend
  have hafter : config.tokensFrom after = [] := by
    rw [show after = ⟨[], after.line⟩ by rw [← hnil]]
    apply Tokenizer.tokensFrom_nil
  have hcursor : config.tokensFrom cursor = token.delivered ++ config.tokensFrom after :=
    Tokenizer.remaining_of_peek (Tokenizer.fresh_consistent config cursor) h
  rw [hafter, Token.delivered, if_pos hend] at hcursor
  refine ⟨hcursor, hafter, ?_⟩
  rw [htoken]
  rfl

theorem tokensFrom_of_token (h : config.upcoming cursor = (.ok token, after))
    (hend : token.isEndOfStream = false) :
    config.tokensFrom cursor = token :: config.tokensFrom after := by
  have hcursor : config.tokensFrom cursor = token.delivered ++ config.tokensFrom after :=
    Tokenizer.remaining_of_peek (Tokenizer.fresh_consistent config cursor) h
  rw [hcursor, Token.delivered, if_neg (by simp [hend])]
  rfl

theorem SameAhead.upcoming {cursor cursor' : Cursor} (h : config.SameAhead cursor cursor') :
    ∃ token after token' after', config.upcoming cursor = (.ok token, after) ∧
      config.upcoming cursor' = (.ok token', after') ∧ token.spelling = token'.spelling ∧
      config.SameAhead after after' := by
  obtain ⟨token, after, hup, hsuffix⟩ := @Tokenizer.upcoming_ok_of_faultless config _ h.faultless
  obtain ⟨token', after', hup', hsuffix'⟩ := @Tokenizer.upcoming_ok_of_faultless config _ h.faultless'
  have hfree : ∀ error, Read.fault error ∉ after.input :=
    fun error hmem => h.faultless error (hsuffix.subset hmem)
  have hfree' : ∀ error, Read.fault error ∉ after'.input :=
    fun error hmem => h.faultless' error (hsuffix'.subset hmem)
  have htokens := h.tokens
  refine ⟨token, after, token', after', hup, hup', ?_⟩
  cases hend : token.isEndOfStream with
  | true =>
    obtain ⟨hcursor, hafter, hspelling⟩ := tokensFrom_of_end hup hend
    cases hend' : token'.isEndOfStream with
    | true =>
      obtain ⟨_, hafter', hspelling'⟩ := tokensFrom_of_end hup' hend'
      refine ⟨by rw [hspelling, hspelling'], hfree, hfree', ?_⟩
      rw [hafter, hafter']
    | false => simp [hcursor, tokensFrom_of_token hup' hend'] at htokens
  | false =>
    rw [tokensFrom_of_token hup hend] at htokens
    cases hend' : token'.isEndOfStream with
    | true => simp [(tokensFrom_of_end hup' hend').1] at htokens
    | false =>
      rw [tokensFrom_of_token hup' hend', List.map_cons, List.map_cons, List.cons.injEq] at htokens
      exact ⟨htokens.1, hfree, hfree', htokens.2⟩

end Config

def Likeness.ofSpelling (config : Config) : Likeness config where
  char := Eq
  line := fun _ _ => True
  place := config.SameAhead
  line_of_place _ := trivial
  upcoming h := by
    obtain ⟨token, after, token', after', hup, hup', hspelling, hafter⟩ := h.upcoming
    exact ⟨token, after, token', after', hup, hup', Token.like_iff.2 hspelling, hafter⟩
  wordsEqual word {text text'} h := by
    rw [List.forall₂_eq_eq_eq, String.toList_inj] at h
    rw [h]
  accepts charClass {c c'} h := by
    rw [h]

namespace Tokenizer

theorem sameAhead_of_readAll {config : Config} {text text' : String}
    (h : (ofSource config (.ofText text)).readAll.tokens.map Token.spelling =
      (ofSource config (.ofText text')).readAll.tokens.map Token.spelling) :
    config.SameAhead ⟨.ofText text, 1⟩ ⟨.ofText text', 1⟩ := by
  have hclean := ofText_clean config text
  have hclean' := ofText_clean config text'
  obtain ⟨ending, _, htokens⟩ := hclean.readAll_tokens
  obtain ⟨ending', _, htokens'⟩ := hclean'.readAll_tokens
  refine ⟨hclean.source, hclean'.source, ?_⟩
  rw [htokens, htokens', List.map_append, List.map_append] at h
  exact (List.append_inj' h rfl).1

end Tokenizer

namespace Grammar

theorem matchStream_of_spelling_eq {b : Builder} {grammar : Grammar} (hb : b.build = .ok grammar)
    {text text' : String}
    (h : (grammar.tokenizer (.ofText text)).readAll.tokens.map Token.spelling =
      (grammar.tokenizer (.ofText text')).readAll.tokens.map Token.spelling) :
    grammar.accepts text = grammar.accepts text' ∧
    (grammar.matchStream (grammar.tokenizer (.ofText text))).2.readAll.tokens.map Token.spelling =
      (grammar.matchStream (grammar.tokenizer (.ofText text'))).2.readAll.tokens.map Token.spelling := by
  have hahead := Tokenizer.sameAhead_of_readAll h
  obtain ⟨hresult, htwin⟩ := Likeness.matchStream_twin hb (.ofSpelling grammar.config) hahead
  refine ⟨hresult, ?_⟩
  have hleft := htwin.readAll
  rw [← List.forall₂_eq_eq_eq, List.forall₂_map_left_iff, List.forall₂_map_right_iff]
  apply hleft.imp
  intro a b hab
  exact Token.like_iff.1 hab

def greeting : Builder :=
  { name := "greeting"
    config := { lineComment := some "#" }
    arena := ⟨#[.literal "hello", .token .newline, .charClass .letter, .sequence [0, 1, 2]]⟩
    root := some (.id 3) }

def plainGreeting : String :=
  "hello\nyou all"

def spacedGreeting : String :=
  " hello #you\r\n you\tall#"

theorem matchStream_of_spelling_eq_greeting :
    ∃ grammar, greeting.build = .ok grammar ∧
      (grammar.tokenizer (.ofText plainGreeting)).readAll.tokens.map Token.spelling =
        (grammar.tokenizer (.ofText spacedGreeting)).readAll.tokens.map Token.spelling ∧
      grammar.accepts plainGreeting = grammar.accepts spacedGreeting ∧
      (grammar.matchStream (grammar.tokenizer (.ofText plainGreeting))).2.readAll.tokens.map
          Token.spelling =
        (grammar.matchStream (grammar.tokenizer (.ofText spacedGreeting))).2.readAll.tokens.map
          Token.spelling := by
  have hconfig : greeting.build.toOption.map Grammar.config = some greeting.config := by
    decide +kernel
  have htokens :
      (Tokenizer.ofSource greeting.config (.ofText plainGreeting)).readAll.tokens.map Token.spelling =
        (Tokenizer.ofSource greeting.config (.ofText spacedGreeting)).readAll.tokens.map
          Token.spelling := by
    decide +kernel
  cases hb : greeting.build with
  | error error => simp [hb, Except.toOption] at hconfig
  | ok grammar =>
    simp only [hb, Except.toOption, Option.map_some, Option.some.injEq] at hconfig
    rw [← hconfig] at htokens
    exact ⟨grammar, rfl, htokens, matchStream_of_spelling_eq hb htokens⟩

end Grammar

end TokenGrammar
