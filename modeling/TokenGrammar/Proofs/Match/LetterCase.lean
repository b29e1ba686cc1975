import TokenGrammar.Proofs.Match.Likeness
import TokenGrammar.Proofs.Token.VariantScan
import TokenGrammar.Proofs.Turtle.Soundness

/-!
The case of ASCII letters. A grammar that leaves case out of account, and that gives no meaning to a
letter, makes the same of two texts that differ in the case of letters only (`Grammar.ignoresCase`). Case
is left out of account in two places, where a token is compared with a word and where a character is
compared with another, and nowhere in a scan: there no letter is looked for.
-/

namespace TokenGrammar

theorem Variation.Like.forall₂ {config : Config} {v : Variation config} (hb : ¬v.breaks)
    {rest cs ds : List Char} (h : v.Like rest cs ds) : List.Forall₂ v.char cs ds := by
  induction h with
  | nil => exact .nil
  | char hc _ ih => exact .cons hc ih
  | pair hbreaks => contradiction
  | single hbreaks => contradiction

theorem Variation.Like.of_forall₂ {config : Config} {v : Variation config} {cs ds : List Char}
    (h : List.Forall₂ v.char cs ds) : v.Like [] cs ds := by
  induction h with
  | nil => exact .nil
  | cons hc _ ih => exact .char hc ih

theorem Config.not_minds {config : Config} (h : ∀ c ∈ config.marks, c.isAlpha = false) {c : Char}
    (hc : c.isAlpha = true) : ¬config.Minds c := by
  intro hminds
  cases hminds with
  | mark hmark => simp [h c hmark] at hc
  | digit hdigit => simp [Text.isDigit_of_isAlpha hc] at hdigit
  | point => contradiction
  | lineBreak hbreak =>
    simp only [Source.isLineBreak, Bool.or_eq_true, decide_eq_true_eq] at hbreak
    rcases hbreak with rfl | rfl
    . contradiction
    . contradiction

def Variation.letterCase {config : Config} (h : ∀ c ∈ config.marks, c.isAlpha = false) :
    Variation config where
  char c d := c.toLower = d.toLower
  breaks := False
  same _ := rfl
  changed {c d} hc := by
    rcases Text.eq_or_isAlpha_of_toLower hc with heq | ⟨hletter, hletter'⟩
    . exact Or.inl heq
    . exact Or.inr ⟨Config.not_minds h hletter, Config.not_minds h hletter'⟩
  free hb := hb.elim
  plain hb := hb.elim

theorem lowercaseAll_eq_of_toLower {cs ds : List Char}
    (h : List.Forall₂ (fun c d => c.toLower = d.toLower) cs ds) :
    Text.lowercaseAll cs = Text.lowercaseAll ds := by
  unfold Text.lowercaseAll
  induction h with
  | nil => rfl
  | cons hc _ ih => rw [List.flatMap_cons, List.flatMap_cons, Text.lowercase_eq_of_toLower hc, ih]

theorem CharClass.exact_accepts (c expected : Char) :
    (CharClass.exact expected).accepts false (.char c) =
      decide (Text.lowercase c = Text.lowercase expected) := by
  rw [Bool.eq_iff_iff]
  simp only [accepts, Bool.not_false, Bool.true_and, Bool.or_eq_true, decide_eq_true_eq]
  apply or_iff_right_of_imp
  rintro rfl
  rfl

theorem CharClass.accepts_of_toLower (charClass : CharClass) {c d : Char} (h : c.toLower = d.toLower) :
    charClass.accepts false (.char c) = charClass.accepts false (.char d) := by
  rcases Text.eq_or_isAlpha_of_toLower h with rfl | ⟨hc, hd⟩
  . rfl
  . cases charClass with
    | alphanumeric => simp [accepts, Text.isAlphabetic_of_isAlpha hc, Text.isAlphabetic_of_isAlpha hd]
    | letter => simp [accepts, Text.isAlphabetic_of_isAlpha hc, Text.isAlphabetic_of_isAlpha hd]
    | digit => simp [accepts, Text.isDigit_of_isAlpha hc, Text.isDigit_of_isAlpha hd]
    | endOfWord => rfl
    | exact expected => rw [exact_accepts, exact_accepts, Text.lowercase_eq_of_toLower h]

def Likeness.letterCase {config : Config} (hcase : config.caseSensitive = false)
    (hmarks : ∀ c ∈ config.marks, c.isAlpha = false) : Likeness config where
  char c d := c.toLower = d.toLower
  line := Eq
  place := (Variation.letterCase hmarks).Places
  line_of_place h := by
    cases h with
    | mk => rfl
  upcoming h := by
    obtain ⟨token, after, token', after', hup, hup', htoken, hafter⟩ := h.upcoming
    exact ⟨token, after, token', after', hup, hup',
      ⟨htoken.kind, htoken.text.forall₂ not_false, htoken.line⟩, hafter⟩
  wordsEqual word {text text'} h := by
    unfold TokenGrammar.wordsEqual
    rw [hcase, lowercaseAll_eq_of_toLower h]
    rfl
  accepts charClass {c d} h := by
    rw [hcase]
    exact charClass.accepts_of_toLower h

namespace Grammar

def IgnoresCase (grammar : Grammar) : Prop :=
  ∀ text text' : String, text.toList.map Char.toLower = text'.toList.map Char.toLower →
    grammar.accepts text = grammar.accepts text' ∧
    (grammar.matchStream (grammar.tokenizer (.ofText text))).2.currentLine =
      (grammar.matchStream (grammar.tokenizer (.ofText text'))).2.currentLine

theorem ignoresCase_of_build {b : Builder} {grammar : Grammar} (hb : b.build = .ok grammar)
    (hcase : grammar.config.caseSensitive = false)
    (hmarks : ∀ c ∈ grammar.config.marks, c.isAlpha = false) : grammar.IgnoresCase := by
  intro text text' h
  have hletters : List.Forall₂ (Variation.letterCase hmarks).char text.toList text'.toList := by
    rw [← List.forall₂_eq_eq_eq, List.forall₂_map_left_iff, List.forall₂_map_right_iff] at h
    exact h
  obtain ⟨hresult, htwin⟩ :=
    Likeness.matchStream_twin hb (.letterCase hcase hmarks) (.mk (Variation.Like.of_forall₂ hletters))
  exact ⟨hresult, htwin.currentLine⟩

theorem ignoresCase :
    (∀ (b : Builder) (grammar : Grammar), b.build = .ok grammar → grammar.config.caseSensitive = false →
      (∀ c ∈ grammar.config.marks, c.isAlpha = false) → grammar.IgnoresCase) ∧
    ∃ (b : Builder) (grammar : Grammar), b.build = .ok grammar ∧ turtle = .ok grammar ∧
      grammar.config.caseSensitive = false ∧ (∀ c ∈ grammar.config.marks, c.isAlpha = false) ∧
      grammar.IgnoresCase := by
  constructor
  . intro b grammar hb hcase hmarks
    exact ignoresCase_of_build hb hcase hmarks
  . obtain ⟨grammar, hg, _, _, hconfig⟩ := Turtle.exists_turtle
    obtain ⟨b, hb⟩ := exists_build_of_ofSteps hg
    have hcase : grammar.config.caseSensitive = false := by
      rw [hconfig]
      rfl
    have hmarks : ∀ c ∈ grammar.config.marks, c.isAlpha = false := by
      rw [hconfig, show Turtle.config.marks = [' ', '\t', '"', '\\', '#'] from rfl]
      simp
    exact ⟨b, grammar, hb, hg, hcase, hmarks, ignoresCase_of_build hb hcase hmarks⟩

def quietScript : String :=
  "repeat 4 \x7b fw 10\n turn \x7d\nx"

def loudScript : String :=
  "RePeat 4 \x7b FW 10\n tuRN \x7d\nX"

theorem ignoresCase_loudScript :
    quietScript.toList.map Char.toLower = loudScript.toList.map Char.toLower ∧
    ∃ grammar, turtle = .ok grammar ∧
      grammar.accepts quietScript = grammar.accepts loudScript ∧
      (grammar.matchStream (grammar.tokenizer (.ofText quietScript))).2.currentLine =
        (grammar.matchStream (grammar.tokenizer (.ofText loudScript))).2.currentLine := by
  have hletters : quietScript.toList.map Char.toLower = loudScript.toList.map Char.toLower := by
    decide +kernel
  obtain ⟨b, grammar, hb, hg, hcase, hmarks, _⟩ := ignoresCase.2
  exact ⟨hletters, grammar, hg, ignoresCase.1 b grammar hb hcase hmarks _ _ hletters⟩

end Grammar

end TokenGrammar
