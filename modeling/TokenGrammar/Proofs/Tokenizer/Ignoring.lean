import TokenGrammar.Proofs.Tokenizer.Remaining

/-!
Leaving tokens out comes to the same as reading all of them and dropping those afterwards
(`Tokenizer.readAll_ignoring`). One scan that leaves out several tokens stands against as many scans that
return them, so that the two token streams are compared lexeme by lexeme.
-/

namespace TokenGrammar

def TokenKind.isComment : TokenKind → Bool
  | lineComment => true
  | blockComment => true
  | _ => false

namespace Config

def surfacing (config : Config) : Config :=
  { config with ignoreWhitespace := false, ignoreComments := false }

def wants (config : Config) (token : Token) : Bool :=
  !(config.ignoreWhitespace && token.kind = .whitespace) &&
    !(config.ignoreComments && token.kind.isComment)

theorem wants_eq (config : Config) (token : Token) :
    config.wants token = !config.ignores token.kind := by
  unfold wants ignores
  cases token.kind <;> simp [TokenKind.isComment]

theorem surfacing_ignores (config : Config) (kind : TokenKind) :
    config.surfacing.ignores kind = false := by
  cases kind <;> rfl

theorem surfacing_lexeme (config : Config) (cursor : Cursor) :
    config.surfacing.lexeme cursor = config.lexeme cursor := by
  rfl

variable {config : Config} {cursor after : Cursor} {token : Token}

theorem upcoming_of_ignored (h : config.lexeme cursor = (.ok token, after))
    (hi : config.ignores token.kind = true) : config.upcoming cursor = config.upcoming after := by
  unfold upcoming
  rw [scan_eq config cursor, h]
  dsimp only
  rw [if_pos hi]

theorem upcoming_of_kept (h : config.lexeme cursor = (.ok token, after))
    (hi : config.ignores token.kind = false) : config.upcoming cursor = (.ok token, after) := by
  unfold upcoming
  rw [scan_eq, h]
  simp [hi]

theorem upcoming_of_fault {error : ReadError} (h : config.lexeme cursor = (.error error, after)) :
    config.upcoming cursor = (.error (.read error), after) := by
  unfold upcoming
  rw [scan_eq, h]

theorem input_ne_nil_of_lexeme (h : config.lexeme cursor = (.ok token, after))
    (hend : token.isEndOfStream = false) : cursor.input ≠ [] := by
  intro hnil
  simp only [lexeme, hnil, Prod.mk.injEq, Except.ok.injEq] at h
  simp [← h.1, Token.isEndOfStream, Token.endOfStream] at hend

theorem length_lt_of_lexeme (h : config.lexeme cursor = (.ok token, after))
    (hend : token.isEndOfStream = false) : after.input.length < cursor.input.length := by
  have hlt := config.lexeme_length_lt (input_ne_nil_of_lexeme h hend)
  rw [h] at hlt
  exact hlt

theorem isEndOfStream_of_ignores (hi : config.ignores token.kind = true) :
    token.isEndOfStream = false := by
  unfold Token.isEndOfStream
  cases hk : token.kind <;> simp [hk, ignores] at hi ⊢

end Config

namespace Tokenizer

theorem currentLine_eq {t : Tokenizer} (h : t.replay = false) : t.currentLine = t.cursor.line := by
  unfold currentLine
  split
  . rw [h]
    rfl
  . rfl

theorem readAll_eq_of_nextToken_eq {t t' : Tokenizer} (h : t.nextToken = t'.nextToken) :
    t.readAll = t'.readAll := by
  cases hn : t'.nextToken with
  | mk result u =>
    rw [hn] at h
    unfold readAll
    cases result with
    | error error => rw [readAll_go_of_error h, readAll_go_of_error hn]
    | ok token =>
      cases hend : token.isEndOfStream with
      | true => rw [readAll_go_of_end h hend, readAll_go_of_end hn hend]
      | false => rw [readAll_go_of_token h hend, readAll_go_of_token hn hend]

structure Surfaced (t t' : Tokenizer) : Prop where
  config : t'.config = t.config.surfacing
  cursor : t'.cursor = t.cursor
  between : t.Between
  between' : t'.Between

structure Filters (config : Config) (kept all : Remainder) : Prop where
  tokens : kept.tokens = all.tokens.filter config.wants
  error : kept.error = all.error
  line : kept.after.currentLine = all.after.currentLine

theorem Filters.drop {config : Config} {kept all : Remainder} (h : Filters config kept all) {token : Token}
    (hw : config.wants token = false) :
    Filters config kept { all with tokens := token :: all.tokens } := by
  constructor
  . rw [List.filter_cons_of_neg (by simp [hw])]
    exact h.tokens
  . exact h.error
  . exact h.line

theorem Filters.keep {config : Config} {kept all : Remainder} (h : Filters config kept all) {token : Token}
    (hw : config.wants token = true) :
    Filters config { kept with tokens := token :: kept.tokens }
      { all with tokens := token :: all.tokens } := by
  constructor
  . rw [List.filter_cons_of_pos hw, ← h.tokens]
  . exact h.error
  . exact h.line

-- One lexeme at a time; where it is left out, the first tokenizer stays between the same two tokens.
theorem Surfaced.filters {t t' : Tokenizer} (h : t.Surfaced t') :
    Filters t.config t.readAll t'.readAll := by
  induction hn : t.cursor.input.length using Nat.strongRecOn generalizing t t' with
  | ind n ih =>
    have hnext := nextToken_eq fun _ => h.between.word
    have hnext' := nextToken_eq fun _ => h.between'.word
    rw [h.between.peek] at hnext
    rw [h.between'.peek, h.config, h.cursor] at hnext'
    cases hlex : t.config.lexeme t.cursor with
    | mk result after =>
      have hlex' := (t.config.surfacing_lexeme t.cursor).trans hlex
      cases result with
      | error error =>
        rw [Config.upcoming_of_fault hlex] at hnext
        rw [Config.upcoming_of_fault hlex'] at hnext'
        unfold readAll
        rw [readAll_go_of_error hnext, readAll_go_of_error hnext']
        exact ⟨rfl, rfl, by rw [currentLine_eq rfl, currentLine_eq rfl]; rfl⟩
      | ok token =>
        rw [Config.upcoming_of_kept hlex' (Config.surfacing_ignores _ _)] at hnext'
        have hwants := t.config.wants_eq token
        cases hi : t.config.ignores token.kind with
        | true =>
          have hend := Config.isEndOfStream_of_ignores hi
          have hlt := Config.length_lt_of_lexeme hlex hend
          have hbetween : { t with cursor := after }.Between := ⟨h.between.replay, h.between.word⟩
          have hskip : t.nextToken = { t with cursor := after }.nextToken := by
            rw [hnext, Config.upcoming_of_ignored hlex hi, nextToken_eq fun _ => hbetween.word,
              hbetween.peek]
            rfl
          rw [hi] at hwants
          rw [readAll_eq_of_nextToken_eq hskip, readAll_of_token hnext' hend]
          apply Filters.drop _ hwants
          apply ih after.input.length (by omega) (t := { t with cursor := after }) _ rfl
          exact ⟨h.config, rfl, hbetween, took_between _ _ _⟩
        | false =>
          rw [hi] at hwants
          rw [Config.upcoming_of_kept hlex hi] at hnext
          cases hend : token.isEndOfStream with
          | true =>
            unfold readAll
            rw [readAll_go_of_end hnext hend, readAll_go_of_end hnext' hend]
            constructor
            . simp [hwants]
            . rfl
            . rfl
          | false =>
            have hlt := Config.length_lt_of_lexeme hlex hend
            rw [readAll_of_token hnext hend, readAll_of_token hnext' hend]
            apply Filters.keep _ hwants
            apply ih after.input.length (by omega) (t := t.took token after) _ rfl
            exact ⟨h.config, rfl, took_between _ _ _, took_between _ _ _⟩

theorem readAll_ignoring (config : Config) (source : Source) :
    let kept := (ofSource config source).readAll
    let all := (ofSource config.surfacing source).readAll
    kept.tokens = all.tokens.filter (fun token =>
      !(config.ignoreWhitespace && token.kind = .whitespace) &&
        !(config.ignoreComments && token.kind.isComment)) ∧
    kept.error = all.error ∧
    kept.after.currentLine = all.after.currentLine := by
  have hsurfaced : (ofSource config source).Surfaced (ofSource config.surfacing source) :=
    ⟨rfl, rfl, ⟨rfl, rfl⟩, ⟨rfl, rfl⟩⟩
  have hfilters := hsurfaced.filters
  exact ⟨hfilters.tokens, hfilters.error, hfilters.line⟩

end Tokenizer

end TokenGrammar
