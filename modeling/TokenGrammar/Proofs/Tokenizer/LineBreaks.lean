import TokenGrammar.Proofs.Token.VariantScan
import TokenGrammar.Proofs.Tokenizer.Remaining

/-!
How line breaks are written makes no difference. A carriage return, a line feed and the one before the
other end a line alike, between tokens and within strings and comments. So a text and the same text with
line feeds only have the same tokens, up to the line breaks in the texts of these
(`Tokenizer.readAll_withLineFeeds`).
-/

namespace TokenGrammar

namespace Text

def lineFeeds : List Char → List Char
  | '\r' :: '\n' :: cs => '\n' :: lineFeeds cs
  | '\r' :: cs => '\n' :: lineFeeds cs
  | c :: cs => c :: lineFeeds cs
  | [] => []

def withLineFeeds (text : String) : String :=
  String.ofList (lineFeeds text.toList)

theorem lineFeeds_of_ne {c : Char} (h : c ≠ '\r') (cs : List Char) :
    lineFeeds (c :: cs) = c :: lineFeeds cs := by
  rw [lineFeeds]
  . simp [h]
  . exact h

theorem lineFeeds_return {cs : List Char} (h : cs.head? ≠ some '\n') :
    lineFeeds ('\r' :: cs) = '\n' :: lineFeeds cs := by
  rw [lineFeeds]
  rintro cs rfl
  simp at h

end Text

def Variation.lineFeeds {config : Config} (h : ∀ c ∈ config.marks, Source.isLineBreak c = false) :
    Variation config where
  char c d := c = d ∧ c ≠ '\r'
  breaks := True
  same hc := ⟨rfl, hc trivial⟩
  changed hc := Or.inl hc.1
  free _ := h
  plain _ hc := hc.2

namespace Variation

variable {config : Config} {h : ∀ c ∈ config.marks, Source.isLineBreak c = false}

theorem like_lineFeeds (cs : List Char) : (lineFeeds h).Like [] cs (Text.lineFeeds cs) := by
  fun_induction Text.lineFeeds cs with
  | case1 cs ih => exact .pair trivial ih
  | case2 cs hn ih =>
    apply Like.single trivial _ ih
    rw [List.append_nil]
    cases cs with
    | nil => simp
    | cons c cs =>
      simp only [List.head?_cons, ne_eq, Option.some.injEq]
      rintro rfl
      exact hn cs rfl
  | case3 c cs _ hr ih => exact .char ⟨rfl, hr⟩ ih
  | case4 => exact .nil

theorem eq_of_like {cs ds : List Char} (hlike : (lineFeeds h).Like [] cs ds) :
    ds = Text.lineFeeds cs := by
  induction hlike with
  | nil => rfl
  | char hc _ ih => rw [← hc.1, Text.lineFeeds_of_ne hc.2, ih]
  | pair _ _ ih => rw [ih, Text.lineFeeds]
  | single _ hn _ ih =>
    rw [List.append_nil] at hn
    rw [ih, Text.lineFeeds_return hn]

theorem Tokens.eq_withLineFeeds {token token' : Token} (htoken : (lineFeeds h).Tokens token token') :
    token' = { token with text := Text.withLineFeeds token.text } := by
  have htext : token'.text = Text.withLineFeeds token.text := by
    unfold Text.withLineFeeds
    rw [← eq_of_like htoken.text, String.ofList_toList]
  cases token'
  simp only [Token.mk.injEq]
  exact ⟨htoken.kind.symm, htext, htoken.line.symm, htoken.value.symm⟩

end Variation

namespace Tokenizer

structure Varied {config : Config} (v : Variation config) (t t' : Tokenizer) : Prop where
  settings : t.config = config
  settings' : t'.config = config
  between : t.Between
  between' : t'.Between
  places : v.Places t.cursor t'.cursor

theorem Varied.readAll {config : Config} {v : Variation config} {t t' : Tokenizer} (h : Varied v t t') :
    List.Forall₂ v.Tokens t.readAll.tokens t'.readAll.tokens := by
  apply readAll_related _ h
  intro t t' h
  obtain ⟨token, after, token', after', hup, hup', htoken, hafter⟩ := h.places.upcoming
  refine ⟨token, t.took token after, token', t'.took token' after', ?_, ?_, htoken, htoken.kind, ?_⟩
  . rw [nextToken_eq fun _ => h.between.word, h.between.peek, h.settings, hup]
  . rw [nextToken_eq fun _ => h.between'.word, h.between'.peek, h.settings', hup']
  . exact ⟨h.settings, h.settings', took_between _ _ _, took_between _ _ _, hafter⟩

theorem readAll_withLineFeeds {config : Config} (h : ∀ c ∈ config.marks, Source.isLineBreak c = false)
    (text : String) :
    (ofSource config (.ofText (Text.withLineFeeds text))).readAll.tokens =
      (ofSource config (.ofText text)).readAll.tokens.map fun token =>
        { token with text := Text.withLineFeeds token.text } := by
  have hlike := Variation.like_lineFeeds (h := h) text.toList
  have hvaried : Varied (.lineFeeds h) (ofSource config (.ofText text))
      (ofSource config (.ofText (Text.withLineFeeds text))) := by
    refine ⟨rfl, rfl, ⟨rfl, rfl⟩, ⟨rfl, rfl⟩, ?_⟩
    unfold ofSource Source.ofText Text.withLineFeeds
    rw [String.toList_ofList]
    exact .mk hlike
  rw [← List.forall₂_eq_eq_eq, List.forall₂_map_right_iff]
  apply hvaried.readAll.flip.imp
  intro token' token htoken
  exact htoken.eq_withLineFeeds

def commented : Config :=
  { lineComment := some "#", blockComment := some ("/*", "*/"), ignoreComments := false }

def mixedBreaks : String :=
  "a\r\n\"b\r\rc\r\n\" # d\r12 /* \r\n\n\r*/\r\n\r"

theorem readAll_withLineFeeds_mixedBreaks :
    (∀ c ∈ commented.marks, Source.isLineBreak c = false) ∧
    (ofSource commented (.ofText (Text.withLineFeeds mixedBreaks))).readAll.tokens =
      (ofSource commented (.ofText mixedBreaks)).readAll.tokens.map fun token =>
        { token with text := Text.withLineFeeds token.text } := by
  have hmarks : ∀ c ∈ commented.marks, Source.isLineBreak c = false := by
    rw [show commented.marks = [' ', '\t', '"', '\\', '#', '/', '*', '*', '/'] from rfl]
    simp [Source.isLineBreak]
  exact ⟨hmarks, readAll_withLineFeeds hmarks mixedBreaks⟩

end Tokenizer

end TokenGrammar
