import TokenGrammar.Grammar.Turtle
import TokenGrammar.Proofs.Text.Lowercase

/-!
The scripts of the turtle language, as a context-free grammar over tokens. In every script as many
blocks are opened as are closed (`DerivesCalling.balanced`).
-/

namespace TokenGrammar.Grammar.Turtle

def spells (word : String) (token : Token) : Bool :=
  token.kind = .word && wordsEqual false token.text word

def isIdentifierChar (c : Char) : Bool :=
  Text.isAlphabetic c || Text.isNumeric c || c = '_'

def isIdentifier : List Char → Bool
  | [] => false
  | c :: cs => Text.isAlphabetic c && cs.all isIdentifierChar

def isName (token : Token) : Bool :=
  token.kind = .word && isIdentifier token.text.toList

def moves : List String :=
  ["forward", "fw", "backward", "bw"]

def turns : List String :=
  ["turnleft", "tl", "turnright", "tr", "direction", "dir"]

def pens : List String :=
  ["penup", "pu", "pendown", "pd", "clear", "cls", "reset", "center"]

inductive Symbol where
  | program
  | body
  | block
  | statement

/-- The sequences of tokens that can be derived from a symbol if only some names can be called. -/
inductive DerivesCalling (callable : Token → Prop) : Symbol → List Token → Prop where
  | program {tokens : List Token} {ending : Token} :
    DerivesCalling callable .body tokens → ending.kind = .endOfStream →
      DerivesCalling callable .program (tokens ++ [ending])
  | empty : DerivesCalling callable .body []
  | newline {newline : Token} {tokens : List Token} :
    newline.kind = .newline → DerivesCalling callable .body tokens →
      DerivesCalling callable .body (newline :: tokens)
  | statement {statement tokens : List Token} :
    DerivesCalling callable .statement statement → DerivesCalling callable .body tokens →
      DerivesCalling callable .body (statement ++ tokens)
  | block {opener closer : Token} {tokens : List Token} :
    spells "\x7b" opener → DerivesCalling callable .body tokens → spells "\x7d" closer →
      DerivesCalling callable .block (opener :: tokens ++ [closer])
  | move {verb distance : Token} :
    moves.any (spells · verb) → distance.kind = .number →
      DerivesCalling callable .statement [verb, distance]
  | turn {verb angle : Token} :
    turns.any (spells · verb) → angle.kind = .number → DerivesCalling callable .statement [verb, angle]
  | pen {verb : Token} : pens.any (spells · verb) → DerivesCalling callable .statement [verb]
  | go {verb x y : Token} :
    spells "go" verb → x.kind = .number → y.kind = .number →
      DerivesCalling callable .statement [verb, x, y]
  | print {verb value : Token} :
    spells "print" verb → value.kind = .string ∨ value.kind = .number →
      DerivesCalling callable .statement [verb, value]
  | repetition {verb times : Token} {block : List Token} :
    spells "repeat" verb → times.kind = .number → DerivesCalling callable .block block →
      DerivesCalling callable .statement (verb :: times :: block)
  | learn {verb name : Token} {block : List Token} :
    spells "learn" verb → isName name → DerivesCalling callable .block block →
      DerivesCalling callable .statement (verb :: name :: block)
  | call {name : Token} {arguments : List Token} :
    callable name → isName name → (∀ argument ∈ arguments, argument.kind = .number) →
      DerivesCalling callable .statement (name :: arguments)

abbrev Derives : Symbol → List Token → Prop :=
  DerivesCalling fun _ => True

def opened (tokens : List Token) : Nat :=
  tokens.countP (spells "\x7b")

def closed (tokens : List Token) : Nat :=
  tokens.countP (spells "\x7d")

/-! Names, keywords and braces. -/

def isKeyword (word : String) : Bool :=
  let letters := Text.lowercaseAll word.toList
  letters ≠ [] && letters.all Char.isLower

theorem isIdentifier_of_lowercaseAll {text : List Char} {word : String} (hword : isKeyword word = true)
    (h : Text.lowercaseAll text = Text.lowercaseAll word.toList) : isIdentifier text = true := by
  simp only [isKeyword, ne_eq, decide_not, Bool.and_eq_true, Bool.not_eq_eq_eq_not, Bool.not_true,
    decide_eq_false_iff_not, List.all_eq_true] at hword
  have halpha := Text.isAlphabetic_of_lowercaseAll hword.2 h
  cases text with
  | nil => exact absurd h.symm hword.1
  | cons c cs =>
    simp only [isIdentifier, Bool.and_eq_true, List.all_eq_true]
    constructor
    . apply halpha
      simp
    . intro c' hc
      simp [isIdentifierChar, halpha c' (List.mem_cons_of_mem c hc)]

theorem isName_of_spells {word : String} (hword : isKeyword word = true) {token : Token}
    (h : spells word token = true) : isName token = true := by
  simp only [spells, Bool.and_eq_true, decide_eq_true_eq, wordsEqual, Bool.false_eq_true,
    ↓reduceIte] at h
  simp [isName, h.1, isIdentifier_of_lowercaseAll hword h.2]

theorem isName_of_any_spells {words : List String} (hwords : words.all isKeyword = true) {token : Token}
    (h : words.any (spells · token) = true) : isName token = true := by
  rw [List.any_eq_true] at h
  obtain ⟨word, hmem, hspells⟩ := h
  rw [List.all_eq_true] at hwords
  exact isName_of_spells (hwords word hmem) hspells

def Plain (token : Token) : Prop :=
  spells "\x7b" token = false ∧ spells "\x7d" token = false

theorem wordsEqual_of_spells {word : String} {token : Token} (h : spells word token = true) :
    wordsEqual false token.text word = true := by
  simp only [spells, Bool.and_eq_true] at h
  exact h.2

theorem toList_of_opening {text : String} (h : wordsEqual false text "\x7b" = true) :
    text.toList = ['\x7b'] := by
  simp only [wordsEqual, Bool.false_eq_true, ↓reduceIte, decide_eq_true_eq] at h
  exact Text.eq_of_lowercaseAll (by decide) (by decide) (by decide) h

theorem toList_of_closing {text : String} (h : wordsEqual false text "\x7d" = true) :
    text.toList = ['\x7d'] := by
  simp only [wordsEqual, Bool.false_eq_true, ↓reduceIte, decide_eq_true_eq] at h
  exact Text.eq_of_lowercaseAll (by decide) (by decide) (by decide) h

theorem plain_of_toList {token : Token} (hopening : token.text.toList ≠ ['\x7b'])
    (hclosing : token.text.toList ≠ ['\x7d']) : Plain token := by
  constructor
  . rw [Bool.eq_false_iff]
    intro h
    exact hopening (toList_of_opening (wordsEqual_of_spells h))
  . rw [Bool.eq_false_iff]
    intro h
    exact hclosing (toList_of_closing (wordsEqual_of_spells h))

theorem plain_of_isName {token : Token} (h : isName token = true) : Plain token := by
  simp only [isName, Bool.and_eq_true] at h
  apply plain_of_toList
  . intro htext
    rw [htext] at h
    exact absurd h.2 (by decide)
  . intro htext
    rw [htext] at h
    exact absurd h.2 (by decide)

theorem plain_of_kind {token : Token} {kind : TokenKind} (h : token.kind = kind) (hkind : kind ≠ .word) :
    Plain token := by
  simp [Plain, spells, h, hkind]

theorem spells_closing_of_opening {token : Token} (h : spells "\x7b" token = true) :
    spells "\x7d" token = false := by
  rw [Bool.eq_false_iff]
  intro hclosing
  have := toList_of_opening (wordsEqual_of_spells h)
  rw [toList_of_closing (wordsEqual_of_spells hclosing)] at this
  contradiction

/-! Counting the braces. -/

@[simp] theorem opened_append (first second : List Token) :
    opened (first ++ second) = opened first + opened second := by
  unfold opened
  apply List.countP_append

@[simp] theorem closed_append (first second : List Token) :
    closed (first ++ second) = closed first + closed second := by
  unfold closed
  apply List.countP_append

theorem counts_of_plain {token : Token} (h : Plain token) (tokens : List Token) :
    opened (token :: tokens) = opened tokens ∧ closed (token :: tokens) = closed tokens := by
  simp [opened, closed, h.1, h.2]

theorem counts_of_opening {token : Token} (h : spells "\x7b" token = true) (tokens : List Token) :
    opened (token :: tokens) = opened tokens + 1 ∧ closed (token :: tokens) = closed tokens := by
  simp [opened, closed, h, spells_closing_of_opening h]

theorem counts_of_closing {token : Token} (h : spells "\x7d" token = true) (tokens : List Token) :
    opened (token :: tokens) = opened tokens ∧ closed (token :: tokens) = closed tokens + 1 := by
  have hopening : spells "\x7b" token = false := by
    rw [Bool.eq_false_iff]
    intro hopening
    simp [spells_closing_of_opening hopening] at h
  simp [opened, closed, h, hopening]

theorem balanced_nil : opened [] = closed [] := by
  simp [opened, closed]

theorem balanced_cons {token : Token} (h : Plain token) {tokens : List Token}
    (hrest : opened tokens = closed tokens) : opened (token :: tokens) = closed (token :: tokens) := by
  rw [(counts_of_plain h tokens).1, (counts_of_plain h tokens).2, hrest]

theorem DerivesCalling.balanced {callable : Token → Prop} {symbol : Symbol} {tokens : List Token}
    (h : DerivesCalling callable symbol tokens) :
    opened tokens = closed tokens := by
  have number {token : Token} (h : token.kind = .number) : Plain token := plain_of_kind h (by decide)
  have verb {word : String} {token : Token} (h : spells word token = true)
      (hword : isKeyword word = true) : Plain token :=
    plain_of_isName (isName_of_spells hword h)
  have verbs {words : List String} {token : Token} (h : words.any (spells · token) = true)
      (hwords : words.all isKeyword = true) : Plain token :=
    plain_of_isName (isName_of_any_spells hwords h)
  induction h with
  | program _ hending ih =>
    rw [opened_append, closed_append, ih, balanced_cons (plain_of_kind hending (by decide)) balanced_nil]
  | empty => exact balanced_nil
  | newline hnewline _ ih =>
    apply balanced_cons (plain_of_kind hnewline (by decide))
    exact ih
  | statement _ _ ih ih' => rw [opened_append, closed_append, ih, ih']
  | block hopener _ hcloser ih =>
    rw [List.cons_append, (counts_of_opening hopener _).1, (counts_of_opening hopener _).2, opened_append,
      closed_append, (counts_of_closing hcloser []).1, (counts_of_closing hcloser []).2, ih, balanced_nil]
    rfl
  | move hverb hdistance =>
    apply balanced_cons (verbs hverb (by decide))
    exact balanced_cons (number hdistance) balanced_nil
  | turn hverb hangle =>
    apply balanced_cons (verbs hverb (by decide))
    exact balanced_cons (number hangle) balanced_nil
  | pen hverb => exact balanced_cons (verbs hverb (by decide)) balanced_nil
  | go hverb hx hy =>
    apply balanced_cons (verb hverb (by decide))
    apply balanced_cons (number hx)
    exact balanced_cons (number hy) balanced_nil
  | print hverb hvalue =>
    apply balanced_cons (verb hverb (by decide))
    apply balanced_cons _ balanced_nil
    rcases hvalue with hstring | hnumber
    . exact plain_of_kind hstring (by decide)
    . exact number hnumber
  | repetition hverb htimes _ ih =>
    apply balanced_cons (verb hverb (by decide))
    apply balanced_cons (number htimes)
    exact ih
  | learn hverb hname _ ih =>
    apply balanced_cons (verb hverb (by decide))
    apply balanced_cons (plain_of_isName hname)
    exact ih
  | @call name arguments _ hname harguments =>
    apply balanced_cons (plain_of_isName hname)
    induction arguments with
    | nil => exact balanced_nil
    | cons argument arguments ih =>
      simp only [List.mem_cons, forall_eq_or_imp] at harguments
      apply balanced_cons (number harguments.1)
      exact ih harguments.2

theorem DerivesCalling.append {callable : Token → Prop} {first second : List Token}
    (h : DerivesCalling callable .body first) (h' : DerivesCalling callable .body second) :
    DerivesCalling callable .body (first ++ second) := by
  generalize hs : Symbol.body = symbol at h
  induction h with
  | empty => exact h'
  | newline hnewline _ ih => exact .newline hnewline (ih hs)
  | statement hstatement _ _ ih =>
    rw [List.append_assoc]
    exact .statement hstatement (ih hs)
  | _ => contradiction

theorem DerivesCalling.single {callable : Token → Prop} {tokens : List Token}
    (h : DerivesCalling callable .statement tokens) : DerivesCalling callable .body tokens := by
  rw [← List.append_nil tokens]
  exact .statement h .empty

/-! Scripts in which closing braces are missing. -/

def closer : Token :=
  { kind := .word, text := "\x7d", line := 0 }

def loosened (token : Token) : List Token :=
  let stem := token.text.toList.dropLast
  if token.kind = .word && isIdentifier stem && token.text.toList = stem ++ ['\x7d'] then
    [{ kind := .word, text := String.ofList stem, line := token.line },
      { kind := .word, text := "\x7d", line := token.line }]
  else [token]

def Unclosed (n : Nat) (tokens : List Token) : Prop :=
  Derives .body (tokens ++ List.replicate n closer)

theorem unclosed_zero {tokens : List Token} : Unclosed 0 tokens ↔ Derives .body tokens := by
  simp [Unclosed]

theorem Unclosed.prepend {n : Nat} {first second : List Token} (h : Derives .body first)
    (h' : Unclosed n second) : Unclosed n (first ++ second) := by
  unfold Unclosed
  rw [List.append_assoc]
  exact h.append h'

theorem Unclosed.block {n : Nat} {opener : Token} {tokens : List Token}
    (hopener : spells "\x7b" opener = true) (h : Unclosed n tokens) :
    Derives .block (opener :: (tokens ++ List.replicate (n + 1) closer)) := by
  rw [List.replicate_succ', ← List.append_assoc]
  exact DerivesCalling.block hopener h (by decide)

theorem Unclosed.repetition {n : Nat} {verb times opener : Token} {tokens : List Token}
    (hverb : spells "repeat" verb = true) (htimes : times.kind = .number)
    (hopener : spells "\x7b" opener = true) (h : Unclosed n tokens) :
    Unclosed (n + 1) (verb :: times :: opener :: tokens) := by
  exact (DerivesCalling.repetition hverb htimes (h.block hopener)).single

theorem Unclosed.learn {n : Nat} {verb name opener : Token} {tokens : List Token}
    (hverb : spells "learn" verb = true) (hname : isName name = true)
    (hopener : spells "\x7b" opener = true) (h : Unclosed n tokens) :
    Unclosed (n + 1) (verb :: name :: opener :: tokens) := by
  exact (DerivesCalling.learn hverb hname (h.block hopener)).single

theorem counts_of_closers (n : Nat) :
    opened (List.replicate n closer) = 0 ∧ closed (List.replicate n closer) = n := by
  have hspells : spells "\x7b" closer = false ∧ spells "\x7d" closer = true := by decide
  simp [opened, closed, List.countP_replicate, hspells.1, hspells.2]

theorem Unclosed.opened_eq {n : Nat} {tokens : List Token} (h : Unclosed n tokens) :
    opened tokens = closed tokens + n := by
  have hbalanced := DerivesCalling.balanced h
  have := counts_of_closers n
  rw [opened_append, closed_append] at hbalanced
  omega

/-! Closing braces at the end of a name. -/

theorem loosened_cases (token : Token) :
    loosened token = [token] ∨
      ∃ stem, token.kind = .word ∧ isIdentifier stem = true ∧
        token.text.toList = stem ++ ['\x7d'] ∧
        loosened token = [{ kind := .word, text := String.ofList stem, line := token.line },
          { kind := .word, text := "\x7d", line := token.line }] := by
  unfold loosened
  dsimp only
  split
  . next h =>
    simp only [Bool.and_eq_true, decide_eq_true_eq] at h
    exact Or.inr ⟨_, h.1.1, h.1.2, h.2, rfl⟩
  . exact Or.inl rfl

theorem not_isIdentifier_append (stem : List Char) : isIdentifier (stem ++ ['\x7d']) = false := by
  have hbrace : isIdentifierChar '\x7d' = false := by decide
  cases stem with
  | nil => decide
  | cons c cs => simp [isIdentifier, hbrace]

theorem loosened_of_isName {token : Token} (h : isName token = true) : loosened token = [token] := by
  rcases loosened_cases token with heq | ⟨stem, _, _, htext, _⟩
  . exact heq
  . simp [isName, htext, not_isIdentifier_append] at h

theorem loosened_of_kind {token : Token} (h : token.kind ≠ .word) : loosened token = [token] := by
  simp [loosened, h]

theorem loosened_of_single {token : Token} {c : Char} (h : token.text.toList = [c]) :
    loosened token = [token] := by
  simp [loosened, h, isIdentifier]

theorem loosened_of_stem {token : Token} (hkind : token.kind = .word) {stem : List Char}
    (hstem : isIdentifier stem = true) (h : token.text.toList = stem ++ ['\x7d']) :
    loosened token = [{ kind := .word, text := String.ofList stem, line := token.line },
      { kind := .word, text := "\x7d", line := token.line }] := by
  simp [loosened, hkind, h, hstem]

theorem counts_of_loosened (token : Token) :
    opened (loosened token) = opened [token] ∧
      (loosened token = [token] ∨ closed [token] < closed (loosened token)) := by
  rcases loosened_cases token with heq | ⟨stem, hkind, hstem, htext, heq⟩
  . simp [heq]
  . have hname : isName { kind := .word, text := String.ofList stem, line := token.line } = true := by
      simp [isName, hstem]
    have hplain := plain_of_isName hname
    have htoken : Plain token := by
      cases stem with
      | nil => simp [isIdentifier] at hstem
      | cons c cs => apply plain_of_toList <;> simp [htext]
    have hbrace : spells "\x7d" { kind := .word, text := "\x7d", line := token.line } = true := by
      simp [spells, wordsEqual]
    rw [heq, (counts_of_plain hplain _).1, (counts_of_plain hplain _).2, (counts_of_closing hbrace _).1,
      (counts_of_closing hbrace _).2, (counts_of_plain htoken _).1, (counts_of_plain htoken _).2]
    exact ⟨rfl, Or.inr (by omega)⟩

theorem counts_of_pieces (tokens : List Token) :
    opened (tokens.flatMap loosened) = opened tokens ∧
      (tokens.flatMap loosened = tokens ∨ closed tokens < closed (tokens.flatMap loosened)) := by
  induction tokens with
  | nil => simp
  | cons token tokens ih =>
    have htoken := counts_of_loosened token
    rw [List.flatMap_cons, ← List.singleton_append]
    simp only [opened_append, closed_append]
    refine ⟨by omega, ?_⟩
    rcases htoken.2 with hsame | hlt
    . rw [hsame]
      rcases ih.2 with heq | hlt
      . exact Or.inl (by rw [heq])
      . exact Or.inr (by omega)
    . right
      rcases ih.2 with heq | hlt'
      . rw [heq]
        omega
      . omega

/--
The tokens of a script with all blocks closed: a closing brace at the end of a name stands by itself, and
the closing braces that are missing stand at the end.
-/
def mended (tokens : List Token) : List Token :=
  let words := (tokens.filter fun token => !token.isEndOfStream).flatMap loosened
  words ++ List.replicate (opened words - closed words) closer ++
    tokens.filter fun token => token.isEndOfStream

section

variable {words : List Token} {ending : Token} {n : Nat}

theorem Unclosed.derives_mended (hwords : ∀ token ∈ words, token.isEndOfStream = false)
    (hending : ending.isEndOfStream = true) (h : Unclosed n (words.flatMap loosened)) :
    Derives .program (mended (words ++ [ending])) := by
  have hn := h.opened_eq
  have hfilter : words.filter (fun token => !token.isEndOfStream) = words := by
    rw [List.filter_eq_self]
    simpa using hwords
  have hfilter' : words.filter (fun token => token.isEndOfStream) = [] := by
    rw [List.filter_eq_nil_iff]
    simpa using hwords
  unfold mended
  simp only [List.filter_append, hfilter, hfilter', List.filter_cons, List.filter_nil, hending,
    Bool.not_true, Bool.false_eq_true, ↓reduceIte, List.append_nil, List.nil_append]
  rw [show opened (words.flatMap loosened) - closed (words.flatMap loosened) = n by omega]
  exact DerivesCalling.program h (by simpa [Token.isEndOfStream] using hending)

theorem Unclosed.derives_iff (hending : ending.isEndOfStream = true)
    (h : Unclosed n (words.flatMap loosened)) :
    Derives .program (words ++ [ending]) ↔ opened (words ++ [ending]) = closed (words ++ [ending]) := by
  have hkind : ending.kind = .endOfStream := by simpa [Token.isEndOfStream] using hending
  have hcounts := counts_of_plain (plain_of_kind hkind (by decide)) []
  have hpieces := counts_of_pieces words
  have hn := h.opened_eq
  constructor
  . exact DerivesCalling.balanced
  . intro hbalanced
    rw [opened_append, closed_append, hcounts.1, hcounts.2, balanced_nil] at hbalanced
    rcases hpieces.2 with heq | hlt
    . rw [heq] at h hn
      obtain rfl : n = 0 := by omega
      exact DerivesCalling.program (unclosed_zero.1 h) hkind
    . omega

end

end TokenGrammar.Grammar.Turtle
