import TokenGrammar.Proofs.Token.Extent
import TokenGrammar.Proofs.Tokenizer.Ignoring

/-!
How a source is divided into tokens if none is left out. Scan after scan cuts the next token off what the scans before
it have left (`Config.Yields`), each one as its category has it, up to the end of the stream or to a fault
(`Tokenizer.readAll_divides`).
-/

namespace TokenGrammar

namespace Config

inductive Yields (config : Config) : Cursor → List Token → Cursor → Prop where
  | done (cursor : Cursor) : Yields config cursor [] cursor
  | token {cursor middle after : Cursor} {token : Token} {tokens : List Token} :
    config.lexeme cursor = (.ok token, middle) → token.isEndOfStream = false →
      Yields config middle tokens after → Yields config cursor (token :: tokens) after

inductive Divides (config : Config) : Source → List Token → Source → Prop where
  | done (rest : Source) : Divides config rest [] rest
  | token {input middle rest : Source} {category : Category} {chunk : List Char} {token : Token}
    {tokens : List Token} : config.Cut input category chunk middle token → Divides config middle tokens rest →
      Divides config input (token :: tokens) rest

variable {config : Config} {cursor after : Cursor} {tokens : List Token}

theorem Yields.readsTo (h : config.Yields cursor tokens after) : cursor.input.ReadsTo after.input := by
  induction h with
  | done cursor => apply Source.ReadsTo.refl
  | @token cursor _ _ _ _ hlexeme _ _ ih =>
    have hexact := config.lexeme_exact cursor
    rw [hlexeme] at hexact
    exact Source.ReadsTo.trans hexact ih

theorem Yields.divides (h : config.Yields cursor tokens after) :
    config.Divides cursor.input tokens after.input := by
  induction h with
  | done cursor => exact .done cursor.input
  | token hlexeme hend _ ih =>
    obtain ⟨category, chunk, hcut⟩ := lexeme_cut hlexeme (input_ne_nil_of_lexeme hlexeme hend)
    exact .token hcut ih

end Config

namespace Tokenizer

theorem Between.readAll_yields {t : Tokenizer} (hb : t.Between) (hw : t.config.ignoreWhitespace = false)
    (hc : t.config.ignoreComments = false) :
    ∃ tokens after, t.config.Yields t.cursor tokens after ∧
      ((after.input = [] ∧ t.readAll.error = none ∧ t.readAll.tokens = tokens ++ [.endOfStream after.line]) ∨
        ∃ error place, t.config.lexeme after = (.error error, place) ∧ t.readAll.error = some (.read error) ∧
          t.readAll.tokens = tokens) := by
  induction hn : t.cursor.input.length using Nat.strongRecOn generalizing t with
  | ind n ih =>
    have hnext := nextToken_eq fun _ => hb.word
    rw [hb.peek] at hnext
    cases hlexeme : t.config.lexeme t.cursor with
    | mk result middle =>
      cases result with
      | error error =>
        rw [Config.upcoming_of_fault hlexeme] at hnext
        have hread : t.readAll = ⟨[], some (.read error), _⟩ := readAll_go_of_error hnext []
        rw [hread]
        exact ⟨[], t.cursor, .done _, Or.inr ⟨error, middle, hlexeme, rfl, rfl⟩⟩
      | ok token =>
        have hi : t.config.ignores token.kind = false := by
          cases token.kind <;> simp [Config.ignores, hw, hc]
        rw [Config.upcoming_of_kept hlexeme hi] at hnext
        cases hend : token.isEndOfStream with
        | true =>
          have hinput : t.cursor.input = [] := by
            by_contra hne
            simp [(Config.lexeme_found hlexeme hne).notEnd] at hend
          have hread : t.readAll = ⟨[token], none, _⟩ := readAll_go_of_end hnext hend []
          rw [hread]
          simp only [Config.lexeme, hinput, Prod.mk.injEq, Except.ok.injEq] at hlexeme
          rw [← hlexeme.1]
          exact ⟨[], t.cursor, .done _, Or.inl ⟨hinput, rfl, rfl⟩⟩
        | false =>
          have hlt := Config.length_lt_of_lexeme hlexeme hend
          have htook := took_between t token middle
          obtain ⟨tokens, after, hyields, hends⟩ := ih middle.input.length (by omega) htook hw hc rfl
          rw [readAll_of_token hnext hend]
          refine ⟨token :: tokens, after, .token hlexeme hend hyields, ?_⟩
          rcases hends with ⟨hinput, herror, htokens⟩ | ⟨error, place, hfault, herror, htokens⟩
          . exact Or.inl ⟨hinput, herror, by rw [htokens]; rfl⟩
          . exact Or.inr ⟨error, place, hfault, herror, by rw [htokens]⟩

theorem readAll_divides {config : Config} (hw : config.ignoreWhitespace = false)
    (hc : config.ignoreComments = false) (source : Source) :
    ∃ tokens rest, config.Divides source tokens rest ∧
      ((rest = [] ∧ (ofSource config source).readAll.error = none ∧
          ∃ line, (ofSource config source).readAll.tokens = tokens ++ [.endOfStream line]) ∨
        ∃ error after, rest.ReadsTo (.fault error :: after) ∧
          (ofSource config source).readAll.error = some (.read error) ∧
          (ofSource config source).readAll.tokens = tokens) := by
  obtain ⟨tokens, after, hyields, hends⟩ :=
    Between.readAll_yields (t := ofSource config source) ⟨rfl, rfl⟩ hw hc
  refine ⟨tokens, after.input, hyields.divides, ?_⟩
  rcases hends with ⟨hinput, herror, htokens⟩ | ⟨error, place, hfault, herror, htokens⟩
  . exact Or.inl ⟨hinput, herror, after.line, htokens⟩
  . have hexact := config.lexeme_exact after
    rw [show config.lexeme after = (.error error, place) from hfault] at hexact
    exact Or.inr ⟨error, place.input, hexact, herror, htokens⟩

def nestedOpeners : Config :=
  { whitespace := [' ', '\n'], ignoreWhitespace := false, lineComment := some "//",
    blockComment := some ("//*", ""), ignoreComments := false, numbersAsWords := true }

theorem readAll_divides_nestedOpeners :
    nestedOpeners.ignoreWhitespace = false ∧ nestedOpeners.ignoreComments = false ∧
      ((ofSource nestedOpeners (.ofText "a/1/ \n 1.2.3//*b")).readAll.tokens.map
          fun token => (token.kind, token.text)) =
        [(.word, "a/1/"), (.whitespace, " \n "), (.word, "1.2"), (.word, ".3"), (.lineComment, "//*b"),
          (.endOfStream, "")] ∧
      ∃ tokens rest, nestedOpeners.Divides (.ofText "a/1/ \n 1.2.3//*b") tokens rest ∧
        ((rest = [] ∧ (ofSource nestedOpeners (.ofText "a/1/ \n 1.2.3//*b")).readAll.error = none ∧
            ∃ line, (ofSource nestedOpeners (.ofText "a/1/ \n 1.2.3//*b")).readAll.tokens =
              tokens ++ [.endOfStream line]) ∨
          ∃ error after, rest.ReadsTo (.fault error :: after) ∧
            (ofSource nestedOpeners (.ofText "a/1/ \n 1.2.3//*b")).readAll.error = some (.read error) ∧
            (ofSource nestedOpeners (.ofText "a/1/ \n 1.2.3//*b")).readAll.tokens = tokens) := by
  exact ⟨rfl, rfl, by decide +kernel, readAll_divides rfl rfl _⟩

end Tokenizer

end TokenGrammar
