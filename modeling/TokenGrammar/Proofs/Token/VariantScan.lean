import TokenGrammar.Proofs.Token.Variation
import TokenGrammar.Proofs.Tokenizer.Consistent

/-!
What scans make of two texts of which one is a variant of the other: the same tokens on the same lines, with
the same values, which differ in their texts only, and again two variants are left. This holds of each kind of
token (`Variation.lexeme_like`), and therefore of the tokens that are not left out (`Variation.scan_like`).
-/

namespace TokenGrammar

namespace Variation

variable {config : Config} {v : Variation config}

variable (v) in
structure Tokens (a b : Token) : Prop where
  kind : a.kind = b.kind
  text : v.Like [] a.text.toList b.text.toList
  line : a.line = b.line
  value : a.value = b.value

variable (v) in
inductive Scans : Scan → Scan → Prop
  | mk {a b : Token} {cs ds : List Char} {line : Nat} : v.Tokens a b → v.Like [] cs ds →
    Scans (.ok a, ⟨cs.map .char, line⟩) (.ok b, ⟨ds.map .char, line⟩)

theorem tokens_mk {kind : TokenKind} {text text' : List Char} {line : Nat} {value : Binary64}
    (h : v.Like [] text text') :
    v.Tokens ⟨kind, String.ofList text, line, value⟩ ⟨kind, String.ofList text', line, value⟩ := by
  constructor
  . rfl
  . simp only [String.toList_ofList]
    exact h
  . rfl
  . rfl

theorem finish_chars (token : Token) (cs : List Char) (line : Nat) :
    Scan.finish token (cs.map .char) line = (.ok token, ⟨cs.map .char, line⟩) := by
  cases cs with
  | nil => rfl
  | cons c cs => rfl

theorem tokens_newline (line : Nat) :
    v.Tokens { kind := .newline, text := "\n", line } { kind := .newline, text := "\n", line } := by
  constructor
  . rfl
  . apply Like.refl
    simp
  . rfl
  . rfl

theorem newlineLexeme_return {cs : List Char} (hn : cs.head? ≠ some '\n') (line : Nat) :
    Config.newlineLexeme '\r' (cs.map .char) line =
      (.ok { kind := .newline, text := "\n", line }, ⟨cs.map .char, line + 1⟩) := by
  cases cs with
  | nil => rfl
  | cons c cs =>
    simp only [List.head?_cons, ne_eq, Option.some.injEq] at hn
    simp [Config.newlineLexeme, hn]

theorem lexeme_break (hb : v.breaks) {c : Char} (hc : Source.isLineBreak c = true) (rest : Source)
    (line : Nat) : config.lexeme ⟨.char c :: rest, line⟩ = Config.newlineLexeme c rest line := by
  have hdigit : c.isDigit = false := by
    simp only [Source.isLineBreak, Bool.or_eq_true, decide_eq_true_eq] at hc
    rcases hc with rfl | rfl
    . rfl
    . rfl
  simp [Config.lexeme, isWhitespace_break hb hc, isQuote_break hb hc, hdigit, hc]

theorem takeUntil_closer_like {closer : List Char} (hcloser : ∀ c ∈ closer, c ∈ config.marks)
    {cs ds : List Char} (h : v.Like [] cs ds) :
    v.Parts cs ds (Source.takeUntil (fun rest => rest.probe closer ≠ .miss) (cs.map .char))
      (Source.takeUntil (fun rest => rest.probe closer ≠ .miss) (ds.map .char)) := by
  apply takeUntil_like _ _ h
  . intro cs ds h
    have hprobe := probe_like hcloser h
    generalize Source.probe closer (cs.map .char) = probe at hprobe
    generalize Source.probe closer (ds.map .char) = probe' at hprobe
    cases hprobe with
    | miss => rfl
    | hit => rfl
  . intro hb cs hgo
    cases closer with
    | nil => simp [Source.probe] at hgo
    | cons x closer =>
      have hx := (ne_of_free hb (hcloser x (by simp))).2
      simp [Source.probe, hx.symm]

theorem takeUntil_wordStop_like {cs ds : List Char} (h : v.Like [] cs ds) :
    v.Parts cs ds (Source.takeUntil (fun rest => config.wordStop rest ≠ .goesOn) (cs.map .char))
      (Source.takeUntil (fun rest => config.wordStop rest ≠ .goesOn) (ds.map .char)) := by
  apply takeUntil_like _ _ h
  . intro cs ds h
    rcases wordStop_like h with ⟨h, h'⟩ | ⟨h, h'⟩
    . rw [h, h']
    . rw [h, h']
  . intro hb cs hgo
    rw [wordStop_of_lineBreak rfl] at hgo
    contradiction

section

variable {cs ds : List Char} (h : v.Like [] cs ds) (line : Nat)

include h

theorem whitespaceLexeme_like :
    v.Scans (config.whitespaceLexeme ⟨cs.map .char, line⟩)
      (config.whitespaceLexeme ⟨ds.map .char, line⟩) := by
  have hbreaks (hb : v.breaks) : config.isWhitespace '\r' = config.isWhitespace '\n' := by
    rw [isWhitespace_break hb rfl, isWhitespace_break hb rfl]
  have hparts := takeRun_like isWhitespace_eq hbreaks h
  have hlines := hparts.lineBreaks
  unfold Config.whitespaceLexeme
  dsimp only
  rw [hlines]
  generalize Source.takeRun config.isWhitespace (cs.map .char) = part at hparts
  generalize Source.takeRun config.isWhitespace (ds.map .char) = part' at hparts
  cases hparts with
  | mk htaken hrest =>
    dsimp only
    rw [finish_chars, finish_chars]
    exact .mk (tokens_mk htaken.alone) hrest

theorem numberLexeme_like :
    v.Scans (config.numberLexeme ⟨cs.map .char, line⟩) (config.numberLexeme ⟨ds.map .char, line⟩) := by
  obtain ⟨whole, places, rs, rs', hnumeral, hnumeral', htext, hrest⟩ := numeral_like h
  unfold Config.numberLexeme
  simp only [hnumeral, hnumeral', finish_chars]
  exact .mk (tokens_mk htext) hrest

theorem stringLexeme_like {quote : Char} (hq : quote ∈ config.marks) :
    v.Scans (config.stringLexeme quote (cs.map .char) line)
      (config.stringLexeme quote (ds.map .char) line) := by
  have hparts := stringBody_go_like hq (Iff.refl (none = config.activeEscape)) h
  have hlines := hparts.lineBreaks
  have hquotes : ∀ c ∈ [quote], c ∈ config.marks := by simpa using hq
  unfold Config.stringLexeme Config.stringBody
  dsimp only
  rw [hlines]
  generalize hpart : Config.stringBody.go quote config.activeEscape none [] (cs.map .char) = part at hparts
  generalize Config.stringBody.go quote config.activeEscape none [] (ds.map .char) = part' at hparts
  cases hparts with
  | mk htaken hrest =>
    have htoken := htaken.between_marks hquotes hquotes
    have hclosed := @Config.eq_quote_of_stringBody_go quote
    -- The body ends before a quote, and no quote is a line break that may be written in another way.
    cases hrest with
    | nil => exact .mk (tokens_mk htoken) .nil
    | char hc hr => exact .mk (tokens_mk htoken) hr
    | pair hb hr => exact absurd (hclosed (congrArg Prod.snd hpart)).symm (ne_of_free hb hq).1
    | single hb hn hr => exact absurd (hclosed (congrArg Prod.snd hpart)).symm (ne_of_free hb hq).1

theorem newlineLexeme_like {c d : Char} (hc : v.char c d) (hbreak : Source.isLineBreak c = true) :
    v.Scans (Config.newlineLexeme c (cs.map .char) line) (Config.newlineLexeme d (ds.map .char) line) := by
  have heq : d = c := (eq_iff (.lineBreak hbreak) hc).1 rfl
  subst heq
  by_cases hr : d = '\r'
  . have hbreaks : ¬v.breaks := fun hb => v.plain hb hc hr
    subst hr
    cases h with
    | nil => exact .mk (tokens_newline line) .nil
    | @char x y cs ds hx hrest =>
      have hfeed : x = '\n' ↔ y = '\n' := eq_iff (.lineBreak rfl) hx
      by_cases hxn : x = '\n'
      . have hyn := hfeed.1 hxn
        subst hxn hyn
        exact .mk (tokens_newline line) hrest
      . have hyn := mt hfeed.2 hxn
        rw [newlineLexeme_return (by simpa using hxn), newlineLexeme_return (by simpa using hyn)]
        exact .mk (tokens_newline line) (.char hx hrest)
    | pair hb => contradiction
    | single hb => contradiction
  . unfold Config.newlineLexeme
    rw [if_neg hr, if_neg hr]
    exact .mk (tokens_newline line) h

theorem commentLexeme_like {opener : List Char} {style : CommentStyle}
    (hopener : (opener, style) ∈ config.openers) :
    v.Scans (Config.commentLexeme opener style (cs.map .char) line)
      (Config.commentLexeme opener style (ds.map .char) line) := by
  obtain ⟨hmarks, hclosers⟩ := Config.mem_marks_of_openers hopener
  have hopen {rest ts ts' : List Char} (h : v.Like rest ts ts') :
      v.Like [] (opener ++ ts) (opener ++ ts') := by
    exact (Like.of_marks hmarks).append h.alone
  unfold Config.commentLexeme
  cases style with
  | line =>
    have hparts := takeRun_like (p := fun c => !Source.isLineBreak c)
      (fun hc => congrArg Bool.not (isLineBreak_eq hc)) (fun _ => rfl) h
    dsimp only
    generalize Source.takeRun (fun c => !Source.isLineBreak c) (cs.map .char) = part at hparts
    generalize Source.takeRun (fun c => !Source.isLineBreak c) (ds.map .char) = part' at hparts
    cases hparts with
    | mk htaken hrest =>
      dsimp only
      rw [finish_chars, finish_chars]
      exact .mk (tokens_mk (hopen htaken)) hrest
  | block closer =>
    have hcloser := hclosers closer rfl
    have hparts := takeUntil_closer_like hcloser h
    have hlines := hparts.lineBreaks
    dsimp only
    rw [hlines]
    generalize Source.takeUntil (fun rest => rest.probe closer ≠ .miss) (cs.map .char) = part at hparts
    generalize Source.takeUntil (fun rest => rest.probe closer ≠ .miss) (ds.map .char) = part' at hparts
    cases hparts with
    | @mk ts ts' rs rs' htaken hrest =>
      have hprobe := probe_like hcloser hrest
      dsimp only
      generalize Source.probe closer (rs.map .char) = probe at hprobe
      generalize Source.probe closer (rs'.map .char) = probe' at hprobe
      cases hprobe with
      | miss => exact .mk (tokens_mk (hopen htaken)) hrest
      | hit hafter => exact .mk (tokens_mk (htaken.between_marks hmarks hcloser)) hafter

theorem wordLexeme_like {c d : Char} (hc : v.char c d) :
    v.Scans (config.wordLexeme c (cs.map .char) line) (config.wordLexeme d (ds.map .char) line) := by
  have hparts := takeUntil_wordStop_like h
  unfold Config.wordLexeme
  dsimp only
  generalize Source.takeUntil (fun rest => config.wordStop rest ≠ .goesOn) (cs.map .char) = part at hparts
  generalize Source.takeUntil (fun rest => config.wordStop rest ≠ .goesOn) (ds.map .char) = part' at hparts
  cases hparts with
  | mk htaken hrest =>
    have htext := Like.char hc htaken.alone
    dsimp only
    rcases wordStop_like hrest with ⟨h, h'⟩ | ⟨h, h'⟩
    . rw [h, h']
      exact .mk (tokens_mk htext) hrest
    . rw [h, h']
      exact .mk (tokens_mk htext) hrest

theorem lexeme_like :
    v.Scans (config.lexeme ⟨cs.map .char, line⟩) (config.lexeme ⟨ds.map .char, line⟩) := by
  cases h with
  | nil => exact .mk ⟨rfl, .nil, rfl, rfl⟩ .nil
  | @char c d cs ds hc hr =>
    have hopening := opening_like (.char hc hr)
    simp only [Config.lexeme, List.map_cons]
    rw [isWhitespace_eq hc, isDigit_eq hc, isQuote_eq hc, isLineBreak_eq hc]
    split
    . exact whitespaceLexeme_like (.char hc hr) line
    split
    . exact numberLexeme_like (.char hc hr) line
    split
    . next hq =>
      have hmark := Config.mem_marks_of_isQuote hq
      have heq : c = d := (eq_iff (.mark hmark) hc).2 rfl
      rw [heq]
      exact stringLexeme_like hr line hmark
    split
    . next hbreak =>
      rw [← isLineBreak_eq hc] at hbreak
      exact newlineLexeme_like hr line hc hbreak
    . simp only [List.map_cons] at hopening
      generalize config.opening (.char c :: cs.map .char) = opening at hopening
      generalize config.opening (.char d :: ds.map .char) = opening' at hopening
      cases hopening with
      | none => exact wordLexeme_like hr line hc
      | comment hopener hbody => exact commentLexeme_like hbody line hopener
  | pair hb hr =>
    simp only [List.map_cons]
    rw [lexeme_break hb rfl, lexeme_break hb rfl]
    exact .mk (tokens_newline line) hr
  | single hb hn hr =>
    rw [List.append_nil] at hn
    simp only [List.map_cons]
    rw [lexeme_break hb rfl, lexeme_break hb rfl, newlineLexeme_return hn]
    exact .mk (tokens_newline line) hr

end

theorem scan_like {cs ds : List Char} (h : v.Like [] cs ds) (line : Nat) :
    v.Scans (config.scan ⟨cs.map .char, line⟩) (config.scan ⟨ds.map .char, line⟩) := by
  induction hn : cs.length using Nat.strongRecOn generalizing cs ds line with
  | ind n ih =>
    have hlexeme := lexeme_like h line
    rw [Config.scan_eq, Config.scan_eq config ⟨ds.map .char, line⟩]
    generalize hfirst : config.lexeme ⟨cs.map .char, line⟩ = first at hlexeme
    generalize config.lexeme ⟨ds.map .char, line⟩ = first' at hlexeme
    cases hlexeme with
    | mk htoken hrest =>
      dsimp only
      rw [htoken.kind]
      split
      . next hi =>
        rw [← htoken.kind] at hi
        have hlt := config.lexeme_length_lt (Config.input_ne_nil_of_ignores hfirst hi)
        rw [hfirst] at hlt
        simp only [List.length_map] at hlt
        exact ih _ (by omega) hrest _ rfl
      . exact .mk htoken hrest

variable (v) in
inductive Places : Cursor → Cursor → Prop
  | mk {cs ds : List Char} {line : Nat} : v.Like [] cs ds →
    Places ⟨cs.map .char, line⟩ ⟨ds.map .char, line⟩

theorem Places.upcoming {cursor cursor' : Cursor} (h : v.Places cursor cursor') :
    ∃ token after token' after', config.upcoming cursor = (.ok token, after) ∧
      config.upcoming cursor' = (.ok token', after') ∧ v.Tokens token token' ∧ v.Places after after' := by
  cases h with
  | @mk cs ds line h =>
    have hscan := scan_like h line
    unfold Config.upcoming
    generalize config.scan ⟨cs.map .char, line⟩ = scan at hscan
    generalize config.scan ⟨ds.map .char, line⟩ = scan' at hscan
    cases hscan with
    | mk htoken hrest => exact ⟨_, _, _, _, rfl, rfl, htoken, .mk hrest⟩

end Variation

end TokenGrammar
